import ArgFill.Proofs.Turn
import Mathlib.Logic.Relation

/-!
# Runs

A run of a filler over a text is a walk of `Filler.State`s, one turn a step: the calls still to be
filled, the rules left out at the first of them, the turns left for it, and the text so far.
`Filler.apply` succeeds only along such a walk (`apply_run`), so what every step keeps holds of every
result.

* `apply_run` : a result is the end of a run;
* `apply_stops` : a fault of filling is the fault with which a run stops;
* `apply_inserts` : each argument was put in by a step at whose beginning the call lacked its key.
-/

namespace ArgFill

namespace Filler

/-- A run on its way: the calls that are not settled yet, in the order in which they are filled, and
the rules left out at the first of them. -/
structure State where
  calls : List Call
  out : List Rule
  left : Nat
  progress : Progress

/-- One turn. A call that is settled gives way to the next one, which has all its turns left. -/
inductive Step (filler : Filler) (budget : Nat) : State → State → Prop
  | added {call : Call} {calls : List Call} {out : List Rule} {left : Nat} {p next : Progress}
      (h : filler.turn call out p = .ok (.added next)) :
      Step filler budget ⟨call :: calls, out, left + 1, p⟩ ⟨call :: calls, out, left, next⟩
  | leftOut {call : Call} {calls : List Call} {out : List Rule} {left : Nat} {p next : Progress}
      {rule : Rule} (h : filler.turn call out p = .ok (.leftOut rule next)) :
      Step filler budget ⟨call :: calls, out, left + 1, p⟩ ⟨call :: calls, rule :: out, left, next⟩
  | settled {call : Call} {calls : List Call} {out : List Rule} {left : Nat} {p : Progress}
      (h : filler.turn call out p = .ok .settled) :
      Step filler budget ⟨call :: calls, out, left + 1, p⟩ ⟨calls, [], budget, p⟩

def Run (filler : Filler) (budget : Nat) : State → State → Prop :=
  Relation.ReflTransGen (filler.Step budget)

variable {filler : Filler} {budget : Nat}

/-! ## Results and faults are those of runs -/

theorem fillCall_run {call : Call} {calls : List Call} {left : Nat} {out : List Rule}
    {p last : Progress} (h : filler.fillCall call left out p = .ok last) :
    filler.Run budget ⟨call :: calls, out, left, p⟩ ⟨calls, [], budget, last⟩ := by
  induction left generalizing out p with
  | zero => cases h
  | succ left ih =>
    rw [fillCall] at h
    cases hturn : filler.turn call out p with
    | error fault =>
      rw [hturn] at h
      cases h
    | ok turn =>
      rw [hturn] at h
      cases turn with
      | settled =>
        obtain rfl := Except.ok.inj h
        exact .single (.settled hturn)
      | added next => exact .head (.added hturn) (ih h)
      | leftOut rule next => exact .head (.leftOut hturn) (ih h)

theorem fillCalls_run {calls : List Call} {p last : Progress}
    (h : filler.fillCalls budget calls p = .ok last) :
    filler.Run budget ⟨calls, [], budget, p⟩ ⟨[], [], budget, last⟩ := by
  induction calls generalizing p with
  | nil =>
    obtain rfl := Except.ok.inj h
    exact .refl
  | cons call calls ih =>
    rw [fillCalls, List.foldlM_cons] at h
    cases hcall : filler.fillCall call budget [] p with
    | error fault =>
      rw [hcall] at h
      cases h
    | ok next =>
      rw [hcall] at h
      exact (fillCall_run hcall).trans (ih h)

section

variable {t : Text} {calls : List Call}

theorem apply_of_locate_error {fault : Fault} (h : filler.target.locate t = .error fault) :
    filler.apply budget t = .error fault := by
  rw [apply, h]
  rfl

theorem apply_of_rules_nil (h : filler.target.locate t = .ok calls) (hrules : filler.rules = []) :
    filler.apply budget t = .ok (t, ⟨filler.target.construct, calls.length, [], []⟩) := by
  rw [apply, h, hrules]
  rfl

theorem apply_of_locate (h : filler.target.locate t = .ok calls) (hrules : filler.rules ≠ []) :
    filler.apply budget t = (filler.fillCalls budget calls.reverse ⟨t, [], []⟩).map fun p =>
      (p.text, ⟨filler.target.construct, calls.length, p.insertions, p.skips⟩) := by
  have hempty : filler.rules.isEmpty = false := by simpa using hrules
  rw [apply, h]
  simp only [bind, Except.bind, hempty, Bool.false_eq_true, if_false]
  cases filler.fillCalls budget calls.reverse ⟨t, [], []⟩ <;> rfl

end

theorem apply_eq_ok_iff {t u : Text} {report : Report} {calls : List Call}
    (h : filler.target.locate t = .ok calls) (hrules : filler.rules ≠ []) :
    filler.apply budget t = .ok (u, report) ↔ ∃ p,
      filler.fillCalls budget calls.reverse ⟨t, [], []⟩ = .ok p ∧ u = p.text ∧
        report = ⟨filler.target.construct, calls.length, p.insertions, p.skips⟩ := by
  rw [apply_of_locate h hrules]
  constructor
  · intro hfilled
    cases hfill : filler.fillCalls budget calls.reverse ⟨t, [], []⟩ with
    | error fault =>
      rw [hfill] at hfilled
      cases hfilled
    | ok p =>
      rw [hfill] at hfilled
      obtain ⟨rfl, rfl⟩ := Prod.mk.inj (Except.ok.inj hfilled)
      exact ⟨p, rfl, rfl, rfl⟩
  · rintro ⟨p, hfill, rfl, rfl⟩
    rw [hfill]
    rfl

/-- A text is filled by a run over its calls, the last one first. Without rules there is nothing
to do. -/
theorem apply_run {t u : Text} {report : Report} (h : filler.apply budget t = .ok (u, report)) :
    ∃ calls p, filler.target.locate t = .ok calls ∧
      (filler.rules = [] ∧ p = ⟨t, [], []⟩ ∨
        filler.Run budget ⟨calls.reverse, [], budget, ⟨t, [], []⟩⟩ ⟨[], [], budget, p⟩) ∧
      u = p.text ∧
      report = ⟨filler.target.construct, calls.length, p.insertions, p.skips⟩ := by
  cases hlocate : filler.target.locate t with
  | error fault =>
    rw [apply_of_locate_error hlocate] at h
    cases h
  | ok calls =>
    by_cases hrules : filler.rules = []
    · rw [apply_of_rules_nil hlocate hrules] at h
      obtain ⟨rfl, rfl⟩ := Prod.mk.inj (Except.ok.inj h)
      exact ⟨calls, _, rfl, Or.inl ⟨hrules, rfl⟩, rfl, rfl⟩
    · obtain ⟨p, hfill, rfl, rfl⟩ := (apply_eq_ok_iff hlocate hrules).1 h
      exact ⟨calls, p, rfl, Or.inr (fillCalls_run hfill), rfl, rfl⟩

/-- Where a run stops: there are no turns left for a call that is not settled, or a turn fails. -/
inductive Stops (filler : Filler) : State → Fault → Prop
  | spent {call : Call} {calls : List Call} {out : List Rule} {p : Progress} :
      Stops filler ⟨call :: calls, out, 0, p⟩ .unsettled
  | failed {call : Call} {calls : List Call} {out : List Rule} {left : Nat} {p : Progress}
      {fault : Fault} (h : filler.turn call out p = .error fault) :
      Stops filler ⟨call :: calls, out, left + 1, p⟩ fault

theorem fillCall_stops {call : Call} (calls : List Call) {left : Nat} {out : List Rule}
    {p : Progress} {fault : Fault} (h : filler.fillCall call left out p = .error fault) :
    ∃ s, filler.Run budget ⟨call :: calls, out, left, p⟩ s ∧ filler.Stops s fault := by
  induction left generalizing out p with
  | zero =>
    obtain rfl := Except.error.inj h
    exact ⟨_, .refl, .spent⟩
  | succ left ih =>
    rw [fillCall] at h
    cases hturn : filler.turn call out p with
    | error fault' =>
      rw [hturn] at h
      obtain rfl := Except.error.inj h
      exact ⟨_, .refl, .failed hturn⟩
    | ok turn =>
      rw [hturn] at h
      cases turn with
      | settled => cases h
      | added next =>
        obtain ⟨s, hrun, hstops⟩ := ih h
        exact ⟨s, .head (.added hturn) hrun, hstops⟩
      | leftOut rule next =>
        obtain ⟨s, hrun, hstops⟩ := ih h
        exact ⟨s, .head (.leftOut hturn) hrun, hstops⟩

theorem fillCalls_stops {calls : List Call} {p : Progress} {fault : Fault}
    (h : filler.fillCalls budget calls p = .error fault) :
    ∃ s, filler.Run budget ⟨calls, [], budget, p⟩ s ∧ filler.Stops s fault := by
  induction calls generalizing p with
  | nil => cases h
  | cons call calls ih =>
    rw [fillCalls, List.foldlM_cons] at h
    cases hcall : filler.fillCall call budget [] p with
    | error fault' =>
      rw [hcall] at h
      obtain rfl := Except.error.inj h
      exact fillCall_stops calls hcall
    | ok next =>
      rw [hcall] at h
      obtain ⟨s, hrun, hstops⟩ := ih h
      exact ⟨s, (fillCall_run hcall).trans hrun, hstops⟩

/-- A fault is a fault of locating, or a run stops with it. -/
theorem apply_stops {t : Text} {fault : Fault} (h : filler.apply budget t = .error fault) :
    filler.target.locate t = .error fault ∨ ∃ calls s, filler.target.locate t = .ok calls ∧
      filler.Run budget ⟨calls.reverse, [], budget, ⟨t, [], []⟩⟩ s ∧ filler.Stops s fault := by
  cases hlocate : filler.target.locate t with
  | error fault' =>
    rw [apply_of_locate_error hlocate] at h
    obtain rfl := Except.error.inj h
    exact Or.inl rfl
  | ok calls =>
    by_cases hrules : filler.rules = []
    · rw [apply_of_rules_nil hlocate hrules] at h
      cases h
    · rw [apply_of_locate hlocate hrules] at h
      cases hfill : filler.fillCalls budget calls.reverse ⟨t, [], []⟩ with
      | ok p =>
        rw [hfill] at h
        cases h
      | error fault' =>
        rw [hfill] at h
        obtain rfl := Except.error.inj h
        obtain ⟨s, hrun, hstops⟩ := fillCalls_stops hfill
        exact Or.inr ⟨calls, s, rfl, hrun, hstops⟩

theorem exists_locate_of_apply {t u : Text} {report : Report}
    (h : filler.apply budget t = .ok (u, report)) : ∃ calls, filler.target.locate t = .ok calls := by
  obtain ⟨calls, -, hlocate, -⟩ := apply_run h
  exact ⟨calls, hlocate⟩

/-! ## The moment of an insertion -/

/-- A step puts in an argument at the first call, which lacks the key when it is measured then. -/
structure Inserts (filler : Filler) (budget : Nat) (s s' : State) (i : Insertion) : Prop where
  step : filler.Step budget s s'
  insertions : s'.progress.insertions = s.progress.insertions ++ [i]
  missing : ∃ call calls now, s.calls = call :: calls ∧ i.callStart = call.start ∧
    filler.target.remeasure s.progress.text call = .ok now ∧
    isPresent s.progress.text now i.key = .ok false

theorem of_mem_missing {t : Text} {call : Call} {rules absent : List Rule} {rule : Rule}
    (h : missing t call rules = .ok absent) (hrule : rule ∈ absent) :
    rule ∈ rules ∧ isPresent t call rule.key = .ok false := by
  cases rules with
  | nil =>
    obtain rfl := Except.ok.inj h
    cases hrule
  | cons first rules =>
    rw [missing] at h
    · cases hargs : argsOf t call with
      | error fault =>
        rw [hargs] at h
        cases h
      | ok args =>
        rw [hargs] at h
        obtain rfl := Except.ok.inj h
        obtain ⟨hmem, hkey⟩ := List.mem_filter.1 hrule
        have hkey : args.hasKey rule.key = false := by simpa using hkey
        rw [isPresent, hargs, ← hkey]
        exact ⟨hmem, rfl⟩
    · exact List.cons_ne_nil first rules

/-- What a turn does about the rule it turns to, having measured the call as `now`. -/
inductive Deals (filler : Filler) (call now : Call) (p : Progress) : Option Rule → Turn → Prop
  | settled : Deals filler call now p none .settled
  | leftOut {rule : Rule} {fault : Fault} (hslot : slot p.text now rule = .error fault)
      (hfault : fault.isRecoverable = true) :
      Deals filler call now p (some rule) (.leftOut rule (p.leave call rule))
  | added {rule : Rule} {offset : Nat} {next : Progress}
      (hslot : slot p.text now rule = .ok offset) (hadd : filler.add call rule offset p = .ok next) :
      Deals filler call now p (some rule) (.added next)

/-- What a turn that does not fail has seen and done, whatever the text. -/
theorem turn_eq_ok_iff {call : Call} {out : List Rule} {p : Progress} {turn : Turn} :
    filler.turn call out p = .ok turn ↔ ∃ now absent,
      filler.target.remeasure p.text call = .ok now ∧ missing p.text now filler.rules = .ok absent ∧
        filler.Deals call now p (absent.find? fun rule => !out.contains rule) turn := by
  rw [Filler.turn]
  constructor
  · intro h
    cases hnow : filler.target.remeasure p.text call with
    | error fault =>
      rw [hnow] at h
      cases h
    | ok now =>
      cases habsent : missing p.text now filler.rules with
      | error fault =>
        simp only [hnow, habsent, bind, Except.bind] at h
        cases h
      | ok absent =>
        refine ⟨now, absent, rfl, habsent, ?_⟩
        simp only [hnow, habsent, bind, Except.bind] at h
        cases hfind : absent.find? fun rule => !out.contains rule with
        | none =>
          rw [hfind] at h
          obtain rfl := Except.ok.inj h
          exact .settled
        | some rule =>
          simp only [hfind] at h
          cases hslot : slot p.text now rule with
          | error fault =>
            simp only [hslot] at h
            split at h
            · next hfault =>
              obtain rfl := Except.ok.inj h
              exact .leftOut hslot hfault
            · cases h
          | ok offset =>
            simp only [hslot] at h
            cases hadd : filler.add call rule offset p with
            | error fault =>
              rw [hadd] at h
              cases h
            | ok next =>
              rw [hadd] at h
              obtain rfl := Except.ok.inj h
              exact .added hslot hadd
  · rintro ⟨now, absent, hnow, habsent, hdeals⟩
    simp only [hnow, habsent, bind, Except.bind]
    generalize absent.find? (fun rule => !out.contains rule) = found at hdeals
    cases hdeals with
    | settled => rfl
    | leftOut hslot hfault =>
      simp only [hslot, hfault, if_true]
      rfl
    | added hslot hadd =>
      simp only [hslot, hadd]
      rfl

theorem add_eq_ok_iff {call : Call} {rule : Rule} {offset : Nat} {p next : Progress} :
    filler.add call rule offset p = .ok next ↔ ∃ indent t grown,
      filler.indentation p.text offset = .ok indent ∧
      p.text.insert? offset (rule.insertion indent) = some t ∧
      filler.target.remeasure t call = .ok grown ∧ isPresent t grown rule.key = .ok true ∧
      next = p.put call rule offset t := by
  rw [add]
  constructor
  · intro h
    cases hindent : filler.indentation p.text offset with
    | error fault =>
      rw [hindent] at h
      cases h
    | ok indent =>
      cases htext : p.text.insert? offset (rule.insertion indent) with
      | none =>
        simp only [hindent, htext, bind, Except.bind, Fault.ofPlace] at h
        cases h
      | some t =>
        cases hgrown : filler.target.remeasure t call with
        | error fault =>
          simp only [hindent, htext, hgrown, bind, Except.bind, Fault.ofPlace] at h
          cases h
        | ok grown =>
          refine ⟨indent, t, grown, rfl, htext, hgrown, ?_⟩
          simp only [hindent, htext, hgrown, bind, Except.bind, Fault.ofPlace] at h
          cases hfound : isPresent t grown rule.key with
          | error fault =>
            rw [hfound] at h
            cases h
          | ok found =>
            rw [hfound] at h
            cases found with
            | false => cases h
            | true => exact ⟨rfl, (Except.ok.inj h).symm⟩
  · rintro ⟨indent, t, grown, hindent, htext, hgrown, hfound, rfl⟩
    simp only [hindent, htext, hgrown, hfound, bind, Except.bind, Fault.ofPlace]
    rfl

theorem put_of_add {call : Call} {rule : Rule} {offset : Nat} {p next : Progress}
    (h : filler.add call rule offset p = .ok next) :
    ∃ indent t, filler.indentation p.text offset = .ok indent ∧
      p.text.insert? offset (rule.insertion indent) = some t ∧ next = p.put call rule offset t := by
  obtain ⟨indent, t, -, hindent, htext, -, -, hput⟩ := add_eq_ok_iff.1 h
  exact ⟨indent, t, hindent, htext, hput⟩

/-- What a turn has seen that adds an argument, and what it has made of `p`. -/
inductive Adds (filler : Filler) (call : Call) (out : List Rule) (p : Progress) : Progress → Prop
  | put {now : Call} {rule : Rule} {offset : Nat} {indent t : Text} (hrule : rule ∈ filler.rules)
      (hout : rule ∉ out) (hnow : filler.target.remeasure p.text call = .ok now)
      (hmissing : isPresent p.text now rule.key = .ok false)
      (hslot : slot p.text now rule = .ok offset)
      (hindent : filler.indentation p.text offset = .ok indent)
      (hinsert : p.text.insert? offset (rule.insertion indent) = some t) :
      Adds filler call out p (p.put call rule offset t)

theorem adds_of_turn {call : Call} {out : List Rule} {p next : Progress}
    (h : filler.turn call out p = .ok (.added next)) : filler.Adds call out p next := by
  obtain ⟨now, absent, hnow, habsent, hdeals⟩ := turn_eq_ok_iff.1 h
  generalize hfind : absent.find? (fun rule => !out.contains rule) = found at hdeals
  cases hdeals with
  | added hslot hadd =>
    obtain ⟨hrule, hmissing⟩ := of_mem_missing habsent (List.mem_of_find?_eq_some hfind)
    obtain ⟨indent, t, hindent, hinsert, rfl⟩ := put_of_add hadd
    exact .put hrule (by simpa using List.find?_some hfind) hnow hmissing hslot hindent hinsert

theorem eq_leave_of_turn {call : Call} {out : List Rule} {p next : Progress} {rule : Rule}
    (h : filler.turn call out p = .ok (.leftOut rule next)) : next = p.leave call rule := by
  obtain ⟨_, absent, -, -, hdeals⟩ := turn_eq_ok_iff.1 h
  generalize absent.find? (fun rule => !out.contains rule) = found at hdeals
  cases hdeals with
  | leftOut => rfl

/-- A step that puts in an argument puts in that of a rule, at its slot in the first call. -/
theorem Inserts.exists_put {s s' : State} {i : Insertion} (h : filler.Inserts budget s s' i) :
    ∃ call calls now rule offset indent, s.calls = call :: calls ∧ rule ∈ filler.rules ∧
      rule ∉ s.out ∧ filler.target.remeasure s.progress.text call = .ok now ∧
      slot s.progress.text now rule = .ok offset ∧
      filler.indentation s.progress.text offset = .ok indent ∧
      s.progress.text.insert? offset (rule.insertion indent) = some s'.progress.text ∧
      i = ⟨call.start, offset, rule.key⟩ := by
  obtain ⟨hstep, hinsertions, -⟩ := h
  cases hstep with
  | settled => simp at hinsertions
  | leftOut hturn =>
    obtain rfl := eq_leave_of_turn hturn
    simp at hinsertions
  | added hturn =>
    cases adds_of_turn hturn with
    | put hrule hout hnow _ hslot hindent hinsert =>
      refine ⟨_, _, _, _, _, _, rfl, hrule, hout, hnow, hslot, hindent, hinsert, ?_⟩
      simpa [eq_comm] using hinsertions

/-- A step adds nothing, or puts in one argument that was missing. -/
theorem Step.insertions_eq {s s' : State} (h : filler.Step budget s s') :
    s'.progress.insertions = s.progress.insertions ∨ ∃ i, filler.Inserts budget s s' i := by
  cases h with
  | settled => exact Or.inl rfl
  | leftOut hturn =>
    obtain rfl := eq_leave_of_turn hturn
    exact Or.inl rfl
  | added hturn =>
    cases adds_of_turn hturn with
    | put _ _ hnow hmissing =>
      exact Or.inr ⟨_, .added hturn, rfl, _, _, _, rfl, rfl, hnow, hmissing⟩

theorem Run.insertions_grow {first last : State} (h : filler.Run budget first last) :
    ∃ more, last.progress.insertions = first.progress.insertions ++ more := by
  induction h with
  | refl => exact ⟨[], by simp⟩
  | tail _ hstep ih =>
    obtain ⟨more, hmore⟩ := ih
    rcases hstep.insertions_eq with hsame | ⟨i, hi⟩
    · exact ⟨more, hsame.trans hmore⟩
    · exact ⟨more ++ [i], by rw [hi.insertions, hmore, List.append_assoc]⟩

theorem Run.calls_suffix {first last : State} (h : filler.Run budget first last) :
    last.calls <:+ first.calls := by
  induction h with
  | refl => exact List.suffix_rfl
  | tail _ hstep ih =>
    cases hstep with
    | added => exact ih
    | leftOut => exact ih
    | settled => exact (List.suffix_cons _ _).trans ih

section

variable {α : Type} (log : Progress → List α) {Adds : State → State → α → Prop}

/-- What a run has noted, in a log to which a step adds one item or none, it knew at the first or a
step noted it. -/
theorem Run.exists_step
    (hadds : ∀ {s s' : State}, filler.Step budget s s' → log s'.progress = log s.progress ∨
      ∃ a, Adds s s' a ∧ log s'.progress = log s.progress ++ [a])
    {first last : State} (h : filler.Run budget first last) {a : α} (ha : a ∈ log last.progress) :
    a ∈ log first.progress ∨
      ∃ s s', filler.Run budget first s ∧ Adds s s' a ∧ filler.Run budget s' last := by
  induction h with
  | refl => exact Or.inl ha
  | @tail s s' hrun hstep ih =>
    have earlier : a ∈ log s.progress → a ∈ log first.progress ∨
        ∃ r r', filler.Run budget first r ∧ Adds r r' a ∧ filler.Run budget r' s' := by
      intro hmem
      rcases ih hmem with h | ⟨r, r', hr, hadded, hr'⟩
      · exact Or.inl h
      · exact Or.inr ⟨r, r', hr, hadded, hr'.tail hstep⟩
    rcases hadds hstep with hsame | ⟨b, hb, hlog⟩
    · exact earlier (hsame ▸ ha)
    · rw [hlog, List.mem_append, List.mem_singleton] at ha
      rcases ha with ha | rfl
      · exact earlier ha
      · exact Or.inr ⟨s, s', hrun, hb, .refl⟩

theorem apply_exists_step
    (hadds : ∀ {s s' : State}, filler.Step budget s s' → log s'.progress = log s.progress ∨
      ∃ a, Adds s s' a ∧ log s'.progress = log s.progress ++ [a])
    {t u : Text} {report : Report} (h : filler.apply budget t = .ok (u, report))
    {calls : List Call} (hlocate : filler.target.locate t = .ok calls)
    (hnone : log ⟨t, [], []⟩ = []) {a : α}
    (ha : a ∈ log ⟨u, report.insertions, report.skips⟩) :
    ∃ s s', filler.Run budget ⟨calls.reverse, [], budget, ⟨t, [], []⟩⟩ s ∧ Adds s s' a ∧
      filler.Run budget s' ⟨[], [], budget, ⟨u, report.insertions, report.skips⟩⟩ := by
  have hfirst : a ∉ log ⟨t, [], []⟩ := by simp [hnone]
  obtain ⟨calls', p, hlocate', hrun, rfl, rfl⟩ := apply_run h
  obtain rfl := Except.ok.inj (hlocate.symm.trans hlocate')
  rcases hrun with ⟨-, rfl⟩ | hrun
  · exact absurd ha hfirst
  · exact (hrun.exists_step log hadds ha).resolve_left hfirst

end

/-- Every argument of a report was put in when its call lacked the key. -/
theorem apply_inserts {t u : Text} {report : Report} (h : filler.apply budget t = .ok (u, report))
    {calls : List Call} (hlocate : filler.target.locate t = .ok calls) {i : Insertion}
    (hi : i ∈ report.insertions) :
    ∃ s s', filler.Run budget ⟨calls.reverse, [], budget, ⟨t, [], []⟩⟩ s ∧
      filler.Inserts budget s s' i ∧
      filler.Run budget s' ⟨[], [], budget, ⟨u, report.insertions, report.skips⟩⟩ :=
  apply_exists_step Progress.insertions
    (fun hstep => hstep.insertions_eq.imp_right fun ⟨i, hi⟩ => ⟨i, hi, hi.insertions⟩)
    h hlocate rfl hi

theorem exists_call_of_mem_insertions {t u : Text} {report : Report}
    (h : filler.apply budget t = .ok (u, report)) {calls : List Call}
    (hlocate : filler.target.locate t = .ok calls) {i : Insertion} (hi : i ∈ report.insertions) :
    ∃ call ∈ calls, i.callStart = call.start := by
  obtain ⟨s, s', hrun, ⟨-, -, call, rest, -, hcalls, hstart, -⟩, -⟩ := apply_inserts h hlocate hi
  have hmem := hrun.calls_suffix.subset (hcalls ▸ List.mem_cons_self)
  exact ⟨call, List.mem_reverse.1 hmem, hstart⟩

end Filler

end ArgFill
