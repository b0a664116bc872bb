import ArgFill.Proofs.Attribution
import ArgFill.Proofs.ReadsAs

/-!
# What a report tells to be left out

A rule is left out in the middle of a run, which may put its key into the same list later on:
another rule has the same key, or one that ends with it, or an argument of an enclosing call comes to
stand there. So what a report tells to be left out is missing from the result exactly if no insertion
that arrives in the list (`Filler.Arrives`) is read as the key (`Text.readsAs`).

* `Puts.nthArgs` : what one insertion does to the list of a call;
* `Run.nthArgs` : what a run does to it, from any of its states on;
* `skip_stays_missing` : when a key told to be left out stays missing. It does so if no rule adds
  what is read as the key of another one, and the text tells its nested calls;
* `skipped_but_present` : it may be put in after all, by a later rule with the same key.
-/

namespace ArgFill

/-! ## The list of a call, by the number of the call -/

namespace Target

/-- The list of the `n`-th call of a text is `args`. -/
def NthArgs (target : Target) (t : Text) (n : Nat) (args : Text) : Prop :=
  ∃ calls call, target.locate t = .ok calls ∧ calls[n]? = some call ∧ call.args? t = some args

def InNthArgs (target : Target) (t : Text) (n offset : Nat) : Prop :=
  ∃ calls call, target.locate t = .ok calls ∧ calls[n]? = some call ∧ call.argsStart ≤ offset ∧
    offset ≤ call.argsEnd

variable {target : Target} {t args args' : Text} {n offset : Nat} {calls : List Call} {call : Call}

theorem exists_nthArgs (hlocate : target.locate t = .ok calls) (hcall : calls[n]? = some call) :
    ∃ args, call.HasArgs target.brackets t args ∧ target.NthArgs t n args := by
  obtain ⟨args, hargs⟩ := exists_hasArgs_of_mem_locate hlocate (List.mem_of_getElem? hcall)
  exact ⟨args, hargs, calls, call, hlocate, hcall, hargs.args?⟩

theorem NthArgs.unique (h : target.NthArgs t n args) (h' : target.NthArgs t n args') :
    args = args' := by
  obtain ⟨calls, call, hlocate, hcall, hargs⟩ := h
  obtain ⟨calls', call', hlocate', hcall', hargs'⟩ := h'
  obtain rfl := Except.ok.inj (hlocate.symm.trans hlocate')
  obtain rfl := Option.some.inj (hcall.symm.trans hcall')
  exact Option.some.inj (hargs.symm.trans hargs')

theorem inNthArgs_iff (hlocate : target.locate t = .ok calls) (hcall : calls[n]? = some call) :
    target.InNthArgs t n offset ↔ call.argsStart ≤ offset ∧ offset ≤ call.argsEnd := by
  constructor
  · rintro ⟨calls', call', hlocate', hcall', hplace⟩
    obtain rfl := Except.ok.inj (hlocate.symm.trans hlocate')
    obtain rfl := Option.some.inj (hcall.symm.trans hcall')
    exact hplace
  · exact fun hplace => ⟨calls, call, hlocate, hcall, hplace⟩

end Target

namespace Filler

variable {filler : Filler} {budget n : Nat} {t u args : Text} {i : Insertion} {first last : State}

/-- One insertion gives a list the keys that it is read as, if it is made in the list. -/
theorem Puts.nthArgs (h : filler.Plain) (hput : filler.Puts t i u)
    (hargs : filler.target.NthArgs t n args) :
    ∃ args', filler.target.NthArgs u n args' ∧ ∀ key : Text, key.isName = true →
      (args'.hasKey key = true ↔ args.hasKey key = true ∨
        i.key.readsAs key = true ∧ filler.target.InNthArgs t n i.offset) := by
  have hname := isQualifiedName_of_refusal? h.accepted
  have hb := h.inert.brackets
  have hlist := hargs
  obtain ⟨calls, call, hlocate, hcall, -⟩ := hlist
  obtain ⟨args', hhas, hargs'⟩ := Target.exists_nthArgs hlocate hcall
  obtain rfl := hargs'.unique hargs
  cases hput with
  | @behindComma front back indent rule callStart hrule hindent =>
    obtain ⟨indent', hindent', hgaps⟩ := exists_indentation filler front back
    obtain rfl : indent' = indent := Except.ok.inj (hindent'.symm.trans hindent)
    have hcolon : ':' ∉ rule.literal := fun hc =>
      (isPlain_iff.1 (h.literals rule hrule _ hc)).2.2.1 rfl
    have hbody := inert_argument hname hb (isName_of_refusal? h.accepted hrule).1
      (h.inert.literals rule hrule) hgaps
    have hlocated := Target.locate_insert hname hb hbody hlocate
    obtain ⟨grown, hhas', hcase⟩ := hhas.insert_inert hb hbody
    have hnth : filler.target.NthArgs (front ++ ',' :: (rule.insertion indent' ++ back)) n grown := by
      rw [Rule.insertion_eq, List.append_assoc]
      refine ⟨_, _, hlocated, ?_, hhas'.args?⟩
      rw [List.getElem?_map, hcall]
      rfl
    refine ⟨grown, hnth, fun key hkey => ?_⟩
    rw [Target.inNthArgs_iff hlocate hcall]
    have hend := hhas.argsEnd_eq
    rcases hcase with ⟨rfl, hout⟩ | ⟨x, y, rfl, rfl, hsize⟩
    · have hbegin := hhas.argsStart_ne hb
      refine ⟨Or.inl, fun hkeys => hkeys.resolve_right ?_⟩
      rintro ⟨-, hle, hge⟩
      simp only at hle hge
      omega
    · have hinside : call.argsStart ≤ front.size + 1 ∧ front.size + 1 ≤ call.argsEnd := by
        have hcomma : ','.utf8Size = 1 := rfl
        rw [Text.size_append, Text.size_cons] at hend
        omega
      simp only [Text.hasKey_append_comma hkey, hasKey_argument_eq hkey hcolon hgaps,
        Bool.or_eq_true, and_iff_left hinside]
      tauto

/-! ## What arrives in a list -/

/-- On the way from one state to another an insertion is made in the list of the `n`-th call. -/
def Arrives (filler : Filler) (budget : Nat) (first last : State) (n : Nat) (i : Insertion) : Prop :=
  ∃ s s', filler.Run budget first s ∧ filler.Inserts budget s s' i ∧ filler.Run budget s' last ∧
    filler.target.InNthArgs s.progress.text n i.offset

theorem Inserts.puts (haccepted : filler.refusal? = none) {s s' : State}
    (h : filler.Inserts budget s s' i) : filler.Puts s.progress.text i s'.progress.text := by
  rcases h.step.puts haccepted with ⟨-, hsame⟩ | ⟨j, hput, hmore⟩
  · have hone := hsame.symm.trans h.insertions
    simp at hone
  · obtain rfl : i = j := by simpa using h.insertions.symm.trans hmore
    exact hput

theorem Arrives.of_run {s : State} (h : filler.Arrives budget s last n i)
    (hrun : filler.Run budget first s) : filler.Arrives budget first last n i := by
  obtain ⟨r, r', hr, hinserts, hr', hplace⟩ := h
  exact ⟨r, r', hrun.trans hr, hinserts, hr', hplace⟩

theorem Arrives.step {s : State} (h : filler.Arrives budget first s n i)
    (hstep : filler.Step budget s last) : filler.Arrives budget first last n i := by
  obtain ⟨r, r', hr, hinserts, hr', hplace⟩ := h
  exact ⟨r, r', hr, hinserts, hr'.tail hstep, hplace⟩

/-- A step that changes the text makes an insertion, and notes that. -/
theorem Step.text_eq (haccepted : filler.refusal? = none) {s s' : State}
    (h : filler.Step budget s s') : s'.progress.text = s.progress.text ∨
      ∃ i, filler.Inserts budget s s' i ∧ filler.Puts s.progress.text i s'.progress.text := by
  rcases h.insertions_eq with hsame | ⟨i, hinserts⟩
  · rcases h.puts haccepted with ⟨htext, -⟩ | ⟨j, -, hmore⟩
    · exact Or.inl htext
    · rw [hsame] at hmore
      simp at hmore
  · exact Or.inr ⟨i, hinserts, hinserts.puts haccepted⟩

/-- What a run does to the list of a call. The list keeps its keys, and gets those that the
insertions made in it are read as. -/
theorem Run.nthArgs (h : filler.Plain) (hrun : filler.Run budget first last)
    (hargs : filler.target.NthArgs first.progress.text n args) :
    ∃ args', filler.target.NthArgs last.progress.text n args' ∧ ∀ key : Text, key.isName = true →
      (args.hasKey key = true → args'.hasKey key = true) ∧
      (args'.hasKey key = true → args.hasKey key = true ∨
        ∃ i, filler.Arrives budget first last n i ∧ i.key.readsAs key = true) := by
  induction hrun with
  | refl => exact ⟨args, hargs, fun _ _ => ⟨id, Or.inl⟩⟩
  | @tail s s' hbefore hstep ih =>
    obtain ⟨args', hargs', hkeys⟩ := ih
    rcases hstep.text_eq h.accepted with htext | ⟨i, hinserts, hput⟩
    · rw [htext]
      refine ⟨args', hargs', fun key hkey => ⟨(hkeys key hkey).1, fun hhas => ?_⟩⟩
      exact ((hkeys key hkey).2 hhas).imp_right fun ⟨i, hi, hreads⟩ => ⟨i, hi.step hstep, hreads⟩
    · obtain ⟨args'', hargs'', hstepKeys⟩ := hput.nthArgs h hargs'
      refine ⟨args'', hargs'', fun key hkey => ⟨fun hhas => ?_, fun hhas => ?_⟩⟩
      · exact (hstepKeys key hkey).2 (Or.inl ((hkeys key hkey).1 hhas))
      · rcases (hstepKeys key hkey).1 hhas with hhas | ⟨hreads, hplace⟩
        · exact ((hkeys key hkey).2 hhas).imp_right fun ⟨i, hi, hreads⟩ => ⟨i, hi.step hstep, hreads⟩
        · exact Or.inr ⟨i, ⟨s, s', hbefore, hinserts, .refl, hplace⟩, hreads⟩

/-- A list that an insertion arrives in has the keys that this is read as, from then on. -/
theorem Arrives.hasKey (h : filler.Plain) (harrives : filler.Arrives budget first last n i)
    (hargs : filler.target.NthArgs last.progress.text n args) {key : Text}
    (hkey : key.isName = true) (hreads : i.key.readsAs key = true) : args.hasKey key = true := by
  obtain ⟨s, s', -, hinserts, hbehind, hplace⟩ := harrives
  have hlist := hplace
  obtain ⟨calls, call, hlocate, hcall, -⟩ := hlist
  obtain ⟨old, -, hold⟩ := Target.exists_nthArgs hlocate hcall
  obtain ⟨grown, hgrown, hkeys⟩ := (hinserts.puts h.accepted).nthArgs h hold
  obtain ⟨args', hargs', hkept⟩ := hbehind.nthArgs h hgrown
  obtain rfl := hargs.unique hargs'
  exact (hkept key hkey).1 ((hkeys key hkey).2 (Or.inr ⟨hreads, hplace⟩))

/-! ## The call that an insertion is made for -/

section

variable (h : filler.Plain) {calls : List Call} (hlocate : filler.target.locate t = .ok calls)
  {s s' : State}

include h hlocate

theorem Run.holds (hrun : filler.Run budget ⟨calls.reverse, [], budget, ⟨t, [], []⟩⟩ s) :
    ∃ g done, filler.Holds (filler.Tells t calls) (fun _ _ _ p _ => filler.Tells t calls p)
      (fun _ _ _ => True) calls s g done := by
  have hinv := invariant_tells h budget t calls
  have htells : filler.Tells t calls ⟨t, [], []⟩ :=
    ⟨id, by rwa [Call.map_under_id], fun _ _ hnested => hnested⟩
  exact (Holds.first hlocate hinv htells).run hinv h.inert hlocate hrun

theorem start_inj {a c : Call} (ha : a ∈ calls) (hc : c ∈ calls) (hstart : a.start = c.start) :
    a = c :=
  List.inj_on_of_nodup_map (Target.nodup_starts (isQualifiedName_of_refusal? h.accepted) hlocate)
    ha hc hstart

/-- An insertion lands in the list of the first call still to be filled. -/
theorem Holds.lands_first {after : Progress → Call → Text → Prop} {g : Nat → Nat} {done : List Call}
    (hholds : filler.Holds (filler.Tells t calls) (fun _ _ _ p _ => filler.Tells t calls p) after
      calls s g done) (hinserts : filler.Inserts budget s s' i) :
    ∃ call ∈ calls, s.calls.head? = some call ∧ i.callStart = call.start ∧
      filler.target.LandsIn s.progress.text i (call.under g) ∧
      (filler.target.TellsNested t call →
        filler.target.LandsApart s.progress.text i (call.under g)) := by
  obtain ⟨call, hcall, hstart, now, hin, hapart⟩ := hholds.lands h.inert hlocate hinserts
  obtain ⟨first, rest, -, hcalls, hfirst, -, -⟩ := hinserts.missing
  have hhead : first ∈ s.calls := hcalls ▸ List.mem_cons_self
  have hmem : first ∈ calls := by
    rw [hholds.parts]
    exact List.mem_append_left _ (List.mem_reverse.2 hhead)
  obtain rfl := start_inj h hlocate hmem hcall (hfirst.symm.trans hstart)
  obtain ⟨nows, hnows, hnow⟩ := hin.located
  obtain rfl := Except.ok.inj (hholds.located.symm.trans hnows)
  obtain ⟨c, hc, rfl⟩ := List.mem_map.1 hnow
  -- nothing was put in before its list, so it begins where it did
  have hfix : g first.start = first.start := hholds.fixed first hhead _ (Nat.le_of_lt
    (Target.start_lt_argsStart_of_mem_locate hlocate hmem))
  have hsame : g c.start = g first.start := (hin.start.trans hstart).trans hfix.symm
  obtain rfl := start_inj h hlocate hc hmem (hholds.mono.injective hsame)
  exact ⟨c, hc, by rw [hcalls]; rfl, hstart, hin, hapart⟩

theorem arrives_of_mem {report : Report} (hrun : filler.apply budget t = .ok (u, report))
    (hi : i ∈ report.insertions) {call : Call} (hcall : calls[n]? = some call)
    (hstart : i.callStart = call.start) :
    filler.Arrives budget ⟨calls.reverse, [], budget, ⟨t, [], []⟩⟩
      ⟨[], [], budget, ⟨u, report.insertions, report.skips⟩⟩ n i := by
  obtain ⟨s, s', hbefore, hinserts, hbehind⟩ := apply_inserts hrun hlocate hi
  obtain ⟨g, done, hholds⟩ := hbefore.holds h hlocate
  obtain ⟨first, hfirst, -, hsame, hin, -⟩ := hholds.lands_first h hlocate hinserts
  obtain rfl := start_inj h hlocate hfirst (List.mem_of_getElem? hcall) (hsame.symm.trans hstart)
  have hmoved : (calls.map (Call.under g))[n]? = some (first.under g) := by
    rw [List.getElem?_map, hcall]
    rfl
  exact ⟨s, s', hbefore, hinserts, hbehind,
    (Target.inNthArgs_iff hholds.located hmoved).2 ⟨hin.argsStart, hin.argsEnd⟩⟩

end

/-! ## The moment a rule is left out -/

/-- A step leaves out a rule at the first call, which the report tells by `skip`. -/
inductive Leaves (filler : Filler) : State → State → Skip → Prop
  | leftOut {call : Call} {calls : List Call} {out : List Rule} {left : Nat} {p : Progress}
      {rule : Rule} (hturn : filler.turn call out p = .ok (.leftOut rule (p.leave call rule))) :
      Leaves filler ⟨call :: calls, out, left + 1, p⟩
        ⟨call :: calls, rule :: out, left, p.leave call rule⟩ ⟨call.start, rule.key, rule.anchor⟩

theorem Leaves.step {s s' : State} {skip : Skip} (h : filler.Leaves s s' skip) (budget : Nat) :
    filler.Step budget s s' := by
  cases h with
  | leftOut hturn => exact .leftOut hturn

theorem Step.skips_eq {s s' : State} (h : filler.Step budget s s') :
    s'.progress.skips = s.progress.skips ∨ ∃ skip, filler.Leaves s s' skip ∧
      s'.progress.skips = s.progress.skips ++ [skip] := by
  cases h with
  | settled => exact Or.inl rfl
  | leftOut hturn =>
    obtain rfl := eq_leave_of_turn hturn
    exact Or.inr ⟨_, .leftOut hturn, rfl⟩
  | added hturn =>
    cases adds_of_turn hturn with
    | put => exact Or.inl rfl

theorem apply_leaves {report : Report} (h : filler.apply budget t = .ok (u, report))
    {calls : List Call} (hlocate : filler.target.locate t = .ok calls) {skip : Skip}
    (hskip : skip ∈ report.skips) :
    ∃ s s', filler.Run budget ⟨calls.reverse, [], budget, ⟨t, [], []⟩⟩ s ∧
      filler.Leaves s s' skip ∧
      filler.Run budget s' ⟨[], [], budget, ⟨u, report.insertions, report.skips⟩⟩ :=
  apply_exists_step Progress.skips Step.skips_eq h hlocate rfl hskip

/-- From a call with a rule left out a run stays there, where the rule stays left out, or goes on to
the calls behind it in the order of filling. -/
theorem Run.same_call (h : filler.Run budget first last) {call : Call} {rest : List Call}
    (hcalls : first.calls = call :: rest) {rule : Rule} (hrule : rule ∈ first.out) :
    (last.calls = call :: rest ∧ rule ∈ last.out) ∨ last.calls <:+ rest := by
  induction h with
  | refl => exact Or.inl ⟨hcalls, hrule⟩
  | tail _ hstep ih =>
    cases hstep with
    | added => exact ih
    | leftOut => exact ih.imp_left fun ⟨hcalls, hout⟩ => ⟨hcalls, List.mem_cons_of_mem _ hout⟩
    | settled =>
      rcases ih with ⟨hcalls, -⟩ | hsuffix
      · obtain ⟨-, rfl⟩ := List.cons.inj hcalls
        exact Or.inr List.suffix_rfl
      · exact Or.inr ((List.suffix_cons _ _).trans hsuffix)

theorem Inserts.exists_rule {s s' : State} (h : filler.Inserts budget s s' i) :
    ∃ rule ∈ filler.rules, i.key = rule.key ∧ rule ∉ s.out := by
  obtain ⟨_, _, _, rule, _, _, -, hrule, hout, -, -, -, -, rfl⟩ := h.exists_put
  exact ⟨rule, hrule, rfl, hout⟩

theorem Leaves.exists_nthArgs (h : filler.Plain) {calls : List Call}
    (hlocate : filler.target.locate t = .ok calls) {s s' : State} {skip : Skip}
    (hbefore : filler.Run budget ⟨calls.reverse, [], budget, ⟨t, [], []⟩⟩ s)
    (hleaves : filler.Leaves s s' skip) :
    ∃ n call rest, ∃ rule ∈ filler.rules, ∃ args, calls[n]? = some call ∧
      s'.calls = call :: rest ∧ rule ∈ s'.out ∧ skip = ⟨call.start, rule.key, rule.anchor⟩ ∧
      filler.target.NthArgs s'.progress.text n args ∧ args.hasKey rule.key = false := by
  obtain ⟨g, done, hholds⟩ := hbefore.holds h hlocate
  cases hleaves with
  | @leftOut call rest out left p rule hturn =>
    have hmem := hholds.mem.1 call List.mem_cons_self
    obtain ⟨n, hn, rfl⟩ := List.getElem_of_mem hmem
    obtain ⟨args, hopens, -⟩ := hholds.current _ rfl
    obtain ⟨args', hargs, hopens'⟩ := exists_opens hholds.located hmem
      (hholds.fixed _ List.mem_cons_self _ (Nat.le_refl _))
    obtain rfl := hopens'.unique h.inert.brackets.differ hopens
    cases Outcome.of_turn h.accepted h.inert.brackets hopens hturn with
    | leftOut hnext =>
      obtain ⟨hrule, hmissing, -⟩ := of_next?_eq_some hnext
      refine ⟨n, _, rest, rule, hrule, args', List.getElem?_eq_getElem hn, rfl, List.mem_cons_self,
        rfl, ⟨_, _, hholds.located, ?_, hargs.args?⟩, hmissing⟩
      rw [List.getElem?_map, List.getElem?_eq_getElem hn]
      rfl

/-! ## When a key told to be left out stays missing -/

/-- What a report tells to be left out of the `n`-th call is missing from its list in the result, and
was not put in for the call. -/
structure StaysMissing (filler : Filler) (u : Text) (report : Report) (n : Nat) (skip : Skip) :
    Prop where
  absent : ∃ args, filler.target.NthArgs u n args ∧ args.hasKey skip.key = false
  notAdded : ∀ i ∈ report.insertions, i.callStart = skip.callStart → i.key ≠ skip.key

/-- If the key is missing from the list, then it was not put in: it would have arrived there. -/
theorem staysMissing_iff (h : filler.Plain) {report : Report}
    (hrun : filler.apply budget t = .ok (u, report)) {calls : List Call}
    (hlocate : filler.target.locate t = .ok calls) {call : Call} (hcall : calls[n]? = some call)
    {skip : Skip} (hstart : skip.callStart = call.start) (hkey : skip.key.isName = true)
    (hargs : filler.target.NthArgs u n args) :
    filler.StaysMissing u report n skip ↔ args.hasKey skip.key = false := by
  constructor
  · rintro ⟨⟨args', hargs', habsent⟩, -⟩
    rwa [hargs.unique hargs']
  · refine fun habsent => ⟨⟨args, hargs, habsent⟩, fun i hi hsame hadded => ?_⟩
    have harrives := arrives_of_mem h hlocate hrun hi hcall (hsame.trans hstart)
    have hread : i.key.readsAs skip.key = true := by
      rw [hadded]
      exact Text.readsAs_self (Text.ne_nil_of_isName hkey)
    rw [harrives.hasKey h hargs hkey hread] at habsent
    cases habsent

/-- No rule adds what is read as the key of another rule. -/
def KeysApart (filler : Filler) : Prop :=
  ∀ rule ∈ filler.rules, ∀ other ∈ filler.rules, other.key.readsAs rule.key = true → other = rule

/-- Behind the moment a rule is left out of a list, nothing arrives there that is read as its key. -/
theorem not_readsAs_of_arrives (h : filler.Plain) (hkeys : filler.KeysApart) {calls : List Call}
    (hlocate : filler.target.locate t = .ok calls)
    (htells : ∀ call ∈ calls, filler.target.TellsNested t call) {s : State}
    (hbefore : filler.Run budget ⟨calls.reverse, [], budget, ⟨t, [], []⟩⟩ s) {call : Call}
    {rest : List Call} (hcalls : s.calls = call :: rest) (hcall : calls[n]? = some call)
    {rule : Rule} (hrule : rule ∈ filler.rules) (hout : rule ∈ s.out)
    (harrives : filler.Arrives budget s last n i) : i.key.readsAs rule.key = false := by
  obtain ⟨_, out, left, p⟩ := s
  obtain rfl := hcalls
  obtain ⟨r, r', hr, hinserts, -, hplace⟩ := harrives
  obtain ⟨other, hother, hkey, hnot⟩ := hinserts.exists_rule
  rw [hkey]
  by_contra hreads
  obtain rfl := hkeys rule hrule other hother (by simpa using hreads)
  obtain ⟨_, _, hfirst⟩ := Run.holds h hlocate hbefore
  obtain ⟨g, done, hholds⟩ := Run.holds h hlocate (hbefore.trans hr)
  obtain ⟨c, hc, hhead, -, hin, hapart⟩ := hholds.lands_first h hlocate hinserts
  -- the rule is left out at this call, so the insertion is made for one before it
  have hlt : c.start < call.start := by
    rcases hr.same_call rfl hout with ⟨-, hstill⟩ | hsuffix
    · exact absurd hstill hnot
    · exact ((hfirst.order h.inert hlocate).1 c (hsuffix.subset (List.mem_of_head? hhead))).1
  have hmem := List.mem_of_getElem? hcall
  have hmoved : (calls.map (Call.under g))[n]? = some (call.under g) := by
    rw [List.getElem?_map, hcall]
    rfl
  rw [Target.inNthArgs_iff hholds.located hmoved] at hplace
  rcases h.apart_or_contains hlocate hc hmem hlt with hbehind | hcontains
  · have hbegin := Target.start_lt_argsStart_of_mem_locate hlocate hmem
    have h1 := hholds.mono hbehind
    have h2 := hholds.mono hbegin
    have h3 := hin.argsEnd
    simp only [Call.under] at h3 hplace
    omega
  · rw [← Call.contains_under hholds.mono] at hcontains
    exact hapart (htells c hc) _ _ hholds.located (List.mem_map_of_mem hmem) hcontains hplace

/-- **When a key told to be left out stays missing.** It does exactly if nothing that is read as the
key arrives in the list of its call, and that is so if the rules have keys apart and the text tells
its nested calls. -/
theorem skip_stays_missing (h : filler.Plain) {report : Report}
    (hrun : filler.apply budget t = .ok (u, report)) {calls : List Call}
    (hlocate : filler.target.locate t = .ok calls) {skip : Skip} (hskip : skip ∈ report.skips) :
    ∃ n call, calls[n]? = some call ∧ skip.callStart = call.start ∧
      (filler.StaysMissing u report n skip ↔
        ∀ i, filler.Arrives budget ⟨calls.reverse, [], budget, ⟨t, [], []⟩⟩
          ⟨[], [], budget, ⟨u, report.insertions, report.skips⟩⟩ n i →
            i.key.readsAs skip.key = false) ∧
      (filler.KeysApart → (∀ call ∈ calls, filler.target.TellsNested t call) →
        filler.StaysMissing u report n skip) := by
  obtain ⟨s, s', hbefore, hleaves, hbehind⟩ := apply_leaves hrun hlocate hskip
  obtain ⟨n, call, rest, rule, hrule, args, hcall, hcalls, hout, rfl, hargs, hmissing⟩ :=
    hleaves.exists_nthArgs h hlocate hbefore
  have hkey := (isName_of_refusal? h.accepted hrule).1
  have hupTo := hbefore.tail (hleaves.step budget)
  obtain ⟨last, hlast, hkeys⟩ := hbehind.nthArgs h hargs
  have hstays : filler.StaysMissing u report n ⟨call.start, rule.key, rule.anchor⟩ ↔
      last.hasKey rule.key = false := staysMissing_iff h hrun hlocate hcall rfl hkey hlast
  have harrives : last.hasKey rule.key = true →
      ∃ i, filler.Arrives budget s' ⟨[], [], budget, ⟨u, report.insertions, report.skips⟩⟩ n i ∧
        i.key.readsAs rule.key = true := by
    intro hhas
    refine ((hkeys rule.key hkey).2 hhas).resolve_left ?_
    rw [hmissing]
    exact Bool.false_ne_true
  refine ⟨n, call, hcall, rfl, ⟨fun hmiss i hi => ?_, fun hnone => ?_⟩, fun hapart htells => ?_⟩
  · by_contra hread
    have hhas := hi.hasKey h hlast hkey (by simpa using hread)
    rw [hstays.1 hmiss] at hhas
    cases hhas
  · rw [hstays]
    by_contra hhas
    obtain ⟨i, hi, hread⟩ := harrives (by simpa using hhas)
    rw [hnone i (hi.of_run hupTo)] at hread
    cases hread
  · rw [hstays]
    by_contra hhas
    obtain ⟨i, hi, hread⟩ := harrives (by simpa using hhas)
    rw [not_readsAs_of_arrives h hapart hlocate htells hupTo hcalls hcall hrule hout hi] at hread
    cases hread

theorem skip_stays_missing_sample :
    let t := "P(a: P(z: 0,),)".toList
    let u := "P(a: P(z: 0,\nd: 2,),\nb: 1,)".toList
    let calls : List Call := [⟨0, 2, 14⟩, ⟨5, 7, 12⟩]
    let skip : Skip := ⟨5, ['b'], ['a']⟩
    let report : Report := ⟨['P'], 2, [⟨5, 12, ['d']⟩, ⟨0, 20, ['b']⟩], [skip]⟩
    sample.Plain ∧ sample.apply 3 t = .ok (u, report) ∧ sample.target.locate t = .ok calls ∧
    skip ∈ report.skips ∧ sample.KeysApart ∧
    (∀ call ∈ calls, sample.target.TellsNested t call) ∧
    ∃ n call, calls[n]? = some call ∧ skip.callStart = call.start ∧
      (sample.StaysMissing u report n skip ↔
        ∀ i, sample.Arrives 3 ⟨calls.reverse, [], 3, ⟨t, [], []⟩⟩
          ⟨[], [], 3, ⟨u, report.insertions, report.skips⟩⟩ n i →
            i.key.readsAs skip.key = false) ∧
      sample.StaysMissing u report n skip := by
  intro t u calls skip report
  have hrun : sample.apply 3 t = .ok (u, report) := by rfl
  have hlocate : sample.target.locate t = .ok calls := by rfl
  have hkeys : sample.KeysApart := by
    intro rule hrule other hother hread
    have hword : ∀ c ∈ other.key, isWordChar c = true := by
      intro c hc
      simp only [sample, List.mem_cons, List.not_mem_nil, or_false] at hother
      rcases hother with rfl | rfl <;> obtain rfl := List.mem_singleton.1 hc <;> decide
    have hname := (isName_of_refusal? plain_sample.accepted hrule).1
    have hsame := (Text.readsAs_iff_of_isWordChar (Text.ne_nil_of_isName hname) hword).1 hread
    exact List.inj_on_of_nodup_map (by decide) hother hrule hsame
  have htells : ∀ call ∈ calls, sample.target.TellsNested t call := fun call hcall =>
    Target.tellsNested_of_all_isCommon rfl hlocate hcall (by decide)
  have hskip : skip ∈ report.skips := List.mem_singleton.2 rfl
  obtain ⟨n, call, hcall, hstart, hiff, hstays⟩ := skip_stays_missing plain_sample hrun hlocate hskip
  exact ⟨plain_sample, hrun, hlocate, hskip, hkeys, htells, n, call, hcall, hstart, hiff,
    hstays hkeys htells⟩

/-- A key told to be left out may be put in. Of two rules with one key the first is left out, as
there is no `a`, and the second adds the key behind `b`. -/
theorem skipped_but_present :
    let filler : Filler :=
      ⟨⟨['P'], .round⟩, [⟨['k'], ['a'], ['1']⟩, ⟨['k'], ['b'], ['2']⟩], .none⟩
    let t := "P(b: 0,)".toList
    let u := "P(b: 0,\nk: 2,)".toList
    let report : Report := ⟨['P'], 1, [⟨0, 7, ['k']⟩], [⟨0, ['k'], ['a']⟩]⟩
    filler.Plain ∧ filler.apply 3 t = .ok (u, report) ∧
      (∃ args, filler.target.NthArgs u 0 args ∧ args.hasKey ['k'] = true) ∧
      ¬ filler.StaysMissing u report 0 ⟨0, ['k'], ['a']⟩ := by
  intro filler t u report
  have hplain : filler.Plain := by
    refine ⟨by decide +kernel, rfl, fun rule hrule c hc => ?_⟩
    simp only [filler, List.mem_cons, List.not_mem_nil, or_false] at hrule
    rcases hrule with rfl | rfl <;> obtain rfl := List.mem_singleton.1 hc <;> decide
  refine ⟨hplain, by rfl, ⟨"b: 0,\nk: 2,".toList, ⟨[⟨0, 2, 13⟩], ⟨0, 2, 13⟩, rfl, rfl, rfl⟩, rfl⟩, ?_⟩
  exact fun h => h.notAdded _ List.mem_cons_self rfl rfl

end Filler

end ArgFill
