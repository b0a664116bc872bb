import ArgFill.Proofs.Run
import Mathlib.Order.Monotone.Basic

/-!
# Invariants of runs

While a filler with inert literals runs, the calls of the text stay the calls it had at the start,
with their offsets moved. `Filler.Invariant` is what a property has to meet, turn by turn, at one
argument list, so that it holds of a whole run:

* `between` holds of what was done so far whenever no call is being filled;
* `during` holds while a call is filled, of its argument list and the rules left out there;
* `after` holds of every settled call, of its argument list from then on.

`Invariant.of_apply` draws the conclusion: what `apply` returns is between calls, and each call it
located stands in the result, where `after` holds of it.
-/

namespace ArgFill

def Call.under (g : Nat → Nat) (call : Call) : Call :=
  ⟨g call.start, g call.argsStart, g call.argsEnd⟩

theorem Call.map_under_id (calls : List Call) : calls.map (Call.under id) = calls :=
  List.map_id calls

theorem Call.contains_under {g : Nat → Nat} (hmono : StrictMono g) (outer inner : Call) :
    (outer.under g).contains (inner.under g) = outer.contains inner := by
  simp only [Call.contains, Call.under, hmono.le_iff_le, hmono.lt_iff_lt]

theorem strictMono_movedBy (slot n : Nat) : StrictMono (movedBy slot n) :=
  fun _ _ h => movedBy_lt_movedBy h

namespace Filler

/-- A filler that can tell what it adds from what was there: its brackets stand out, and its
literals are inert. -/
structure Inert (filler : Filler) : Prop where
  accepted : filler.refusal? = none
  brackets : filler.target.brackets.StandOut
  literals : ∀ rule ∈ filler.rules, filler.target.Inert rule.literal

/-- A filler with two rules, one behind `a` and one behind `z`. -/
def sample : Filler :=
  ⟨⟨['P'], .round⟩, [⟨['b'], ['a'], ['1']⟩, ⟨['d'], ['z'], ['2']⟩], .none⟩

theorem inert_sample : sample.Inert := by
  refine ⟨by decide +kernel, Brackets.standOut_round, fun rule hrule => ?_⟩
  simp only [sample, List.mem_cons, List.not_mem_nil, or_false] at hrule
  rcases hrule with rfl | rfl <;> exact ⟨rfl, rfl⟩

theorem apply_sample : sample.apply 3 "P(a: 0,)".toList =
    .ok ("P(a: 0,\nb: 1,)".toList, ⟨['P'], 1, [⟨0, 7, ['b']⟩], [⟨0, ['d'], ['z']⟩]⟩) := by rfl

/-- What each turn of a run over `calls` keeps. -/
structure Invariant (filler : Filler) (budget : Nat) (calls : List Call) (between : Progress → Prop)
    (during : Call → List Rule → Nat → Progress → Text → Prop)
    (after : Progress → Call → Text → Prop) : Prop where
  enter {call : Call} {p : Progress} (args : Text) (h : between p)
    (hins : ∀ i ∈ p.insertions, call.start < i.callStart)
    (hskips : ∀ s ∈ p.skips, call.start < s.callStart) : during call [] budget p args
  settled {call : Call} {out : List Rule} {left : Nat} {p : Progress} {args : Text}
    (h : during call out left p args) (hleft : left = 0 → filler.rules = [])
    (hnext : filler.next? args out = none) : between p ∧ after p call args
  leftOut {call : Call} {out : List Rule} {left : Nat} {p : Progress} {args : Text} {rule : Rule}
    (h : during call out (left + 1) p args) (hnext : filler.next? args out = some rule)
    (hslot : args.slot? rule.anchor = none) : during call (rule :: out) left (p.leave call rule) args
  added {call : Call} {out : List Rule} {left : Nat} {p : Progress} {rule : Rule}
    {front x y back indent : Text} (h : during call out (left + 1) p (x ++ ',' :: y))
    (hnext : filler.next? (x ++ ',' :: y) out = some rule) (htop : Reading.top.through x = .top)
    (hindent : ∀ c ∈ indent, isGap c = true) (htext : p.text = front ++ ',' :: back)
    (hkey : (x ++ ',' :: (rule.argument indent ++ ',' :: y)).hasKey rule.key = true) :
    during call out left
      (p.put call rule (front.size + 1) (front ++ ',' :: (rule.argument indent ++ ',' :: back)))
      (x ++ ',' :: (rule.argument indent ++ ',' :: y))
  after_leave {p : Progress} {call done : Call} {args : Text} (rule : Rule) (h : after p done args)
    (hcall : call ∈ calls) (hdone : done ∈ calls) (hlt : call.start < done.start) :
    after (p.leave call rule) done args
  -- only at an enclosing call can the argument come to stand in the list of the settled one
  after_put {p : Progress} {call done : Call} {args args' : Text} {rule : Rule} (indent : Text)
    (h : after p done args) (hrule : rule ∈ filler.rules) (hcall : call ∈ calls)
    (hdone : done ∈ calls) (hlt : call.start < done.start)
    (hargs : args' = args ∨ ¬ call.argsEnd < done.start ∧
      ∃ x y, args = x ++ ',' :: y ∧ args' = x ++ ',' :: (rule.argument indent ++ ',' :: y))
    (offset : Nat) (t : Text) : after (p.put call rule offset t) done args'

/-- The state of a run with an invariant: the located calls are `calls`, moved by `g`, and those in
`done` are settled. Nothing was put in before the arguments of a call still to be filled, and at
none of these but the first was anything done. -/
structure Holds (filler : Filler) (between : Progress → Prop)
    (during : Call → List Rule → Nat → Progress → Text → Prop)
    (after : Progress → Call → Text → Prop) (calls : List Call) (s : State) (g : Nat → Nat)
    (done : List Call) : Prop where
  mono : StrictMono g
  parts : calls = s.calls.reverse ++ done
  located : filler.target.locate s.progress.text = .ok (calls.map (Call.under g))
  fixed : ∀ call ∈ s.calls, ∀ n ≤ call.argsStart, g n = n
  entries : ∀ call ∈ s.calls.tail, (∀ i ∈ s.progress.insertions, call.start < i.callStart) ∧
    ∀ k ∈ s.progress.skips, call.start < k.callStart
  current : ∀ call ∈ s.calls.head?, ∃ args,
    call.Opens filler.target.brackets s.progress.text args ∧
    during call s.out s.left s.progress args
  finished : s.calls = [] → between s.progress
  settled : ∀ call ∈ done, ∃ args,
    (call.under g).HasArgs filler.target.brackets s.progress.text args ∧ after s.progress call args

section

variable {filler : Filler} {budget : Nat} {between : Progress → Prop}
  {during : Call → List Rule → Nat → Progress → Text → Prop} {after : Progress → Call → Text → Prop}
  {calls : List Call} (hinv : filler.Invariant budget calls between during after)
  (hinert : filler.Inert) {t : Text} (hlocate : filler.target.locate t = .ok calls)
  {call : Call} {rest : List Call} {out : List Rule} {left : Nat} {p next : Progress}
  {g : Nat → Nat} {done : List Call}

include hinert hlocate

theorem Holds.order
    (h : filler.Holds between during after calls ⟨call :: rest, out, left, p⟩ g done) :
    (∀ c ∈ rest, c.start < call.start ∧ c.argsStart < call.argsStart) ∧
      ∀ d ∈ done, call.start < d.start := by
  have hpair := Target.pairwise_locate (isQualifiedName_of_refusal? hinert.accepted) hlocate
  rw [h.parts, List.reverse_cons, List.append_assoc, List.pairwise_append] at hpair
  obtain ⟨-, hright, hcross⟩ := hpair
  exact ⟨fun c hc => hcross c (List.mem_reverse.2 hc) call List.mem_cons_self,
    fun d hd => ((List.pairwise_cons.1 hright).1 d hd).1⟩

omit hinert hlocate in
theorem Holds.mem (h : filler.Holds between during after calls ⟨call :: rest, out, left, p⟩ g done) :
    (∀ c ∈ call :: rest, c ∈ calls) ∧ ∀ d ∈ done, d ∈ calls := by
  rw [h.parts]
  exact ⟨fun c hc => List.mem_append_left _ (List.mem_reverse.2 hc),
    fun d hd => List.mem_append_right _ hd⟩

omit hinert hlocate in
/-- The argument list of a located call, at its old place if nothing was put in before it. -/
theorem exists_opens {u : Text} (hu : filler.target.locate u = .ok (calls.map (Call.under g)))
    (hc : call ∈ calls) (hfix : g call.argsStart = call.argsStart) :
    ∃ args, (call.under g).HasArgs filler.target.brackets u args ∧
      call.Opens filler.target.brackets u args := by
  obtain ⟨args, hargs⟩ := Target.exists_hasArgs_of_mem_locate hu (List.mem_map_of_mem hc)
  exact ⟨args, hargs, hargs.opens hfix.symm⟩

include hinv

omit hlocate in
theorem Holds.settle
    (h : filler.Holds between during after calls ⟨call :: rest, out, left + 1, p⟩ g done)
    (hturn : filler.turn call out p = .ok .settled) :
    filler.Holds between during after calls ⟨rest, [], budget, p⟩ g (call :: done) := by
  obtain ⟨args, hopens, hduring⟩ := h.current call rfl
  have hfix := h.fixed call List.mem_cons_self _ (Nat.le_refl _)
  have hmem := h.mem.1
  cases Outcome.of_turn hinert.accepted hinert.brackets hopens hturn with
  | settled hnext =>
    obtain ⟨hbetween, hafter⟩ := hinv.settled hduring (fun h => (nomatch h)) hnext
    refine ⟨h.mono, by rw [h.parts]; simp, h.located,
      fun c hc => h.fixed c (List.mem_cons_of_mem _ hc),
      fun c hc => h.entries c (List.mem_of_mem_tail hc), fun c hc => ?_, fun _ => hbetween,
      fun c hc => ?_⟩
    · have hrest : c ∈ rest := List.mem_of_mem_head? hc
      obtain ⟨args', -, hopens'⟩ := exists_opens h.located
        (hmem c (List.mem_cons_of_mem _ hrest)) (h.fixed c (List.mem_cons_of_mem _ hrest) _ (Nat.le_refl _))
      obtain ⟨hins, hskips⟩ := h.entries c hrest
      exact ⟨args', hopens', hinv.enter args' hbetween hins hskips⟩
    · rcases List.mem_cons.1 hc with rfl | hc
      · obtain ⟨args', hargs, hopens'⟩ := exists_opens h.located (hmem c List.mem_cons_self) hfix
        obtain rfl := hopens'.unique hinert.brackets.differ hopens
        exact ⟨args', hargs, hafter⟩
      · exact h.settled c hc

theorem Holds.leave {rule : Rule}
    (h : filler.Holds between during after calls ⟨call :: rest, out, left + 1, p⟩ g done)
    (hturn : filler.turn call out p = .ok (.leftOut rule next)) :
    filler.Holds between during after calls ⟨call :: rest, rule :: out, left, next⟩ g done := by
  obtain ⟨args, hopens, hduring⟩ := h.current call rfl
  obtain ⟨hrest, hdone⟩ := h.order hinert hlocate
  cases Outcome.of_turn hinert.accepted hinert.brackets hopens hturn with
  | leftOut hnext hslot =>
    refine ⟨h.mono, h.parts, h.located, h.fixed, fun c hc => ⟨(h.entries c hc).1, fun k hk => ?_⟩,
      fun c hc => ?_, fun hnil => (nomatch hnil), fun c hc => ?_⟩
    · rcases List.mem_append.1 hk with hk | hk
      · exact (h.entries c hc).2 k hk
      · obtain rfl := List.mem_singleton.1 hk
        exact (hrest c hc).1
    · obtain rfl := Option.some.inj hc
      exact ⟨args, hopens, hinv.leftOut hduring hnext hslot⟩
    · obtain ⟨args', hargs, hafter⟩ := h.settled c hc
      exact ⟨args', hargs, hinv.after_leave rule hafter (h.mem.1 call List.mem_cons_self)
        (h.mem.2 c hc) (hdone c hc)⟩

omit hinv in
/-- What is put in at the first call or behind it leaves the calls still to be filled in place. -/
theorem Holds.fixed_movedBy
    (h : filler.Holds between during after calls ⟨call :: rest, out, left, p⟩ g done) {slot : Nat}
    (hlt : call.argsStart < slot) (added : Nat) :
    ∀ c ∈ call :: rest, ∀ n ≤ c.argsStart, (movedBy slot added ∘ g) n = n := by
  intro c hc n hn
  have hle : c.argsStart ≤ call.argsStart := by
    rcases List.mem_cons.1 hc with rfl | hc
    · exact Nat.le_refl _
    · exact Nat.le_of_lt (((h.order hinert hlocate).1 c hc).2)
  rw [Function.comp, h.fixed c hc n hn]
  exact movedBy_of_lt (by omega)

theorem Holds.add
    (h : filler.Holds between during after calls ⟨call :: rest, out, left + 1, p⟩ g done)
    (hturn : filler.turn call out p = .ok (.added next)) :
    ∃ g', filler.Holds between during after calls ⟨call :: rest, out, left, next⟩ g' done := by
  obtain ⟨args, hopens, hduring⟩ := h.current call rfl
  obtain ⟨hrest, hdone⟩ := h.order hinert hlocate
  have hmem := h.mem.1 call List.mem_cons_self
  have hname := isQualifiedName_of_refusal? hinert.accepted
  have hb := hinert.brackets
  have hfix := h.fixed call List.mem_cons_self _ (Nat.le_refl _)
  obtain ⟨args', hargs, hopens'⟩ := exists_opens h.located hmem hfix
  obtain rfl := hopens'.unique hb.differ hopens
  cases Outcome.of_turn hinert.accepted hinert.brackets hopens hturn with
  | @added rule front x y back indent grown hnext hsplit hslot htop htext hstart hindent hgrown hkey =>
    subst hsplit
    have hrule := (of_next?_eq_some hnext).1
    have hbody := inert_argument hname hb (isName_of_refusal? hinert.accepted hrule).1
      (hinert.literals rule hrule) hindent
    have hlt : call.argsStart <
        Text.size (front ++ filler.target.brackets.opening :: x) + 1 := by
      rw [Text.size_append, Text.size_cons]
      omega
    have hsize : Text.size (front ++ filler.target.brackets.opening :: x) =
        (call.under g).argsStart + Text.size x := by
      simp only [Call.under, hfix, Text.size_append, Text.size_cons]
      omega
    have hlocated := h.located
    simp only at hlocated
    rw [htext] at hlocated hargs
    have hmoved := hargs.insert_at hb hbody hsize
    have hfixed := h.fixed_movedBy hinert hlocate hlt (rule.argument indent ++ [',']).size
    obtain rfl := hgrown.unique hb.differ
      (hmoved.opens (hfixed call List.mem_cons_self _ (Nat.le_refl _)).symm)
    refine ⟨_, (strictMono_movedBy _ _).comp h.mono, h.parts, ?_, hfixed,
      fun c hc => ⟨fun i hi => ?_, (h.entries c hc).2⟩, fun c hc => ?_, fun hnil => (nomatch hnil),
      fun c hc => ?_⟩
    · have := Target.locate_insert hname hb hbody hlocated
      rwa [List.map_map] at this
    · rcases List.mem_append.1 hi with hi | hi
      · exact (h.entries c hc).1 i hi
      · obtain rfl := List.mem_singleton.1 hi
        exact (hrest c hc).1
    · obtain rfl := Option.some.inj hc
      exact ⟨_, hgrown, hinv.added hduring hnext htop hindent htext hkey⟩
    · obtain ⟨old, hold, hafter⟩ := h.settled c hc
      simp only at hold
      rw [htext] at hold
      obtain ⟨grown, hgrown, hcase⟩ := hold.insert_inert hb hbody
      refine ⟨grown, hgrown,
        hinv.after_put indent hafter hrule hmem (h.mem.2 c hc) (hdone c hc) ?_ _ _⟩
      rcases hcase with ⟨rfl, -⟩ | ⟨x', y', rfl, rfl, hsize'⟩
      · exact Or.inl rfl
      · refine Or.inr ⟨fun hapart => ?_, x', y', rfl, rfl⟩
        have hbegin := Target.start_lt_argsStart_of_mem_locate hlocate (h.mem.2 c hc)
        have h1 := h.mono hapart
        have h2 := h.mono hbegin
        have hend := hargs.argsEnd_eq
        simp only [Call.under, Text.size_append, Text.size_cons] at hend hsize hsize'
        omega

omit hinert hinv in
theorem Holds.first (hinv : filler.Invariant budget calls between during after)
    (hstart : between ⟨t, [], []⟩) :
    filler.Holds between during after calls ⟨calls.reverse, [], budget, ⟨t, [], []⟩⟩ id [] := by
  refine ⟨strictMono_id, by simp, by rw [Call.map_under_id]; exact hlocate, fun c _ n _ => rfl,
    fun c _ => ⟨fun i hi => (nomatch hi), fun k hk => (nomatch hk)⟩, fun c hc => ?_, fun _ => hstart,
    fun c hc => (nomatch hc)⟩
  obtain ⟨args, -, hopens⟩ := exists_opens (by rw [Call.map_under_id]; exact hlocate)
    (List.mem_reverse.1 (List.mem_of_mem_head? hc)) rfl
  exact ⟨args, hopens, hinv.enter args hstart (fun i hi => (nomatch hi)) fun k hk => (nomatch hk)⟩

theorem Holds.step {s s' : State} (h : filler.Holds between during after calls s g done)
    (hstep : filler.Step budget s s') :
    ∃ g' done', filler.Holds between during after calls s' g' done' := by
  cases hstep with
  | settled hturn => exact ⟨g, _, h.settle hinv hinert hturn⟩
  | leftOut hturn => exact ⟨g, done, h.leave hinv hinert hlocate hturn⟩
  | added hturn =>
    obtain ⟨g', h'⟩ := h.add hinv hinert hlocate hturn
    exact ⟨g', done, h'⟩

theorem Holds.run {s s' : State} (h : filler.Holds between during after calls s g done)
    (hrun : filler.Run budget s s') :
    ∃ g' done', filler.Holds between during after calls s' g' done' := by
  induction hrun with
  | refl => exact ⟨g, done, h⟩
  | tail _ hstep ih =>
    obtain ⟨g', done', h'⟩ := ih
    exact h'.step hinv hinert hlocate hstep

/-- What an invariant says about a result. The calls located in the text stand in the result,
with their offsets moved, and `after` holds of their argument lists. -/
theorem Invariant.of_apply (hstart : between ⟨t, [], []⟩) {u : Text} {report : Report}
    (h : filler.apply budget t = .ok (u, report)) :
    ∃ p g, u = p.text ∧
      report = ⟨filler.target.construct, calls.length, p.insertions, p.skips⟩ ∧ between p ∧
      StrictMono g ∧ filler.target.locate u = .ok (calls.map (Call.under g)) ∧
      ∀ call ∈ calls, ∃ args,
        (call.under g).HasArgs filler.target.brackets u args ∧ after p call args := by
  obtain ⟨calls', p, hlocate', hrun, rfl, rfl⟩ := apply_run h
  obtain rfl := Except.ok.inj (hlocate.symm.trans hlocate')
  rcases hrun with ⟨hrules, rfl⟩ | hrun
  · rw [← Call.map_under_id calls] at hlocate
    refine ⟨_, id, rfl, rfl, hstart, strictMono_id, hlocate, fun call hcall => ?_⟩
    obtain ⟨args, hargs, -⟩ := exists_opens hlocate hcall rfl
    have hduring : during call [] budget ⟨t, [], []⟩ args :=
      hinv.enter args hstart (fun i hi => (nomatch hi)) fun k hk => (nomatch hk)
    have hnext : filler.next? args [] = none := by
      rw [next?, hrules]
      rfl
    exact ⟨args, hargs, (hinv.settled hduring (fun _ => hrules) hnext).2⟩
  · have hfirst := Holds.first hlocate hinv hstart
    obtain ⟨g, done, hlast⟩ := hfirst.run hinv hinert hlocate hrun
    have hparts := hlast.parts
    rw [List.reverse_nil, List.nil_append] at hparts
    subst hparts
    exact ⟨p, g, rfl, rfl, hlast.finished rfl, hlast.mono, hlast.located, hlast.settled⟩

end

end Filler

end ArgFill
