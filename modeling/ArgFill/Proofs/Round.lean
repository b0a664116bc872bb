import ArgFill.Proofs.Completion
import ArgFill.Proofs.KeyPlaces
import ArgFill.Proofs.OnePass
import ArgFill.Proofs.ReadsAs

/-!
# One round of the rules

Every turn at a call looks for its rule anew, from the first one on. Where the brackets of the
literals pair up, it never comes back to a rule: a key that is there stays, and a rule that is left
out stays out. So the turns at a call come to one round of the rules, in the order of their list.

* `Filler.Visit` : what becomes of the argument list of a call when a rule is visited;
* `Balanced.fillCall_visit` : a turn, or none, visits the next rule;
* `Balanced.fillCall_of_round` : filling a call is a round of its rules.
-/

namespace ArgFill

/-! ## Slots need keys -/

namespace Text

variable {key args : Text}

theorem slot?_eq_none_of_hasKey (hkey : key.isName = true) (hword : ∀ c ∈ key, isWordChar c = true)
    (h : args.hasKey key = false) : args.slot? key = none := by
  cases hslot : args.slot? key with
  | none => rfl
  | some place =>
    rw [hasKey_of_slot? (ne_nil_of_isName hkey) hword hslot] at h
    cases h

end Text

/-! ## What an argument list stands between -/

structure Setting (b : Brackets) (call : Call) where
  front : Text
  back : Text
  argsStart_eq : call.argsStart = front.size + b.opening.utf8Size

namespace Setting

variable {b : Brackets} {call : Call} (s : Setting b call)

def text (args : Text) : Text := s.front ++ b.opening :: (args ++ b.closing :: s.back)

/-- The text up to a place in the list, `x` being the list up to there. -/
def upTo (x : Text) : Text := s.front ++ b.opening :: x

theorem text_comma (x y : Text) :
    s.text (x ++ ',' :: y) = s.upTo x ++ ',' :: (y ++ b.closing :: s.back) := by
  simp [text, upTo]

theorem text_insert (x added y : Text) :
    s.text (x ++ ',' :: (added ++ ',' :: y)) =
      s.upTo x ++ ',' :: (added ++ ',' :: (y ++ b.closing :: s.back)) := by
  simp [text, upTo]

theorem size_upTo (x : Text) : (s.upTo x).size + 1 = call.argsStart + (x.size + 1) := by
  have := s.argsStart_eq
  rw [upTo, Text.size_append, Text.size_cons]
  omega

theorem opens {args : Text} (h : b.depth? 0 args = some 0) : call.Opens b (s.text args) args :=
  ⟨s.front, s.back, rfl, s.argsStart_eq, h⟩

end Setting

theorem Call.Opens.exists_setting {b : Brackets} {t args : Text} {call : Call}
    (h : call.Opens b t args) : ∃ s : Setting b call, t = s.text args := by
  obtain ⟨front, back, ht, hstart, -⟩ := h
  exact ⟨⟨front, back, hstart⟩, ht⟩

namespace Filler

/-! ## Visiting rules -/

/-- A rule that adds nothing to an argument list, with what is reported of it: the list has its key,
or it has no slot for it and the rule is left out. -/
inductive Idle (call : Call) (rule : Rule) (args : Text) : List Skip → Prop
  | present (hkey : args.hasKey rule.key = true) : Idle call rule args []
  | leftOut (hkey : args.hasKey rule.key = false) (hslot : args.slot? rule.anchor = none) :
      Idle call rule args [⟨call.start, rule.key, rule.anchor⟩]

/-- The argument of a rule goes in behind the comma between two parts of an argument list. -/
structure GoesIn (rule : Rule) (x y : Text) : Prop where
  key : (x ++ ',' :: y).hasKey rule.key = false
  slot : (x ++ ',' :: y).slot? rule.anchor = some (x.size + 1)
  top : Reading.top.through x = .top

/-- The state in which a rule is visited, and the one behind it: the rule is idle, or its argument
is put in. -/
inductive Visit {b : Brackets} {call : Call} (s : Setting b call) (indent : Indent) (rule : Rule)
    (p : Progress) : Text → Progress → Text → Prop
  | idle {args : Text} {skips : List Skip} (h : Idle call rule args skips) :
      Visit s indent rule p args { p with skips := p.skips ++ skips } args
  | added {x y : Text} (h : GoesIn rule x y) :
      Visit s indent rule p (x ++ ',' :: y)
        (p.put call rule (call.argsStart + (x.size + 1))
          (s.text (x ++ ',' :: (rule.argument (indent.behind (s.upTo x)) ++ ',' :: y))))
        (x ++ ',' :: (rule.argument (indent.behind (s.upTo x)) ++ ',' :: y))

inductive Round {b : Brackets} {call : Call} (s : Setting b call) (indent : Indent) :
    List Rule → Progress → Text → Progress → Text → Prop
  | nil {p : Progress} {args : Text} : Round s indent [] p args p args
  | cons {rule : Rule} {rules : List Rule} {p q r : Progress} {args args' args'' : Text}
      (h : Visit s indent rule p args q args') (hrest : Round s indent rules q args' r args'') :
      Round s indent (rule :: rules) p args r args''

theorem exists_visit {b : Brackets} {call : Call} (s : Setting b call) (indent : Indent) {rule : Rule}
    (hanchor : rule.anchor.isName = true) (p : Progress) (args : Text) :
    ∃ q args', Visit s indent rule p args q args' := by
  cases hkey : args.hasKey rule.key with
  | true => exact ⟨_, _, .idle (.present hkey)⟩
  | false =>
    cases hslot : args.slot? rule.anchor with
    | none => exact ⟨_, _, .idle (.leftOut hkey hslot)⟩
    | some place =>
      obtain ⟨x, y, rfl, rfl, htop⟩ := Text.slot?_eq_some hanchor hslot
      exact ⟨_, _, .added ⟨hkey, hslot, htop⟩⟩

variable {filler : Filler} {call : Call} {s : Setting filler.target.brackets call}
  {done rest : List Rule} {rule : Rule} {out : List Rule} {p q : Progress} {args args' : Text}

/-- The state of a call between two visits: the rules visited have their keys in the argument list
or are left out. -/
structure Visited (filler : Filler) (s : Setting filler.target.brackets call)
    (done out : List Rule) (p : Progress) (args : Text) : Prop where
  text : p.text = s.text args
  depth : filler.target.brackets.depth? 0 args = some 0
  settled : ∀ rule ∈ done, args.hasKey rule.key = true ∨ rule ∈ out
  out_subset : out ⊆ done

theorem Visited.opens (hp : filler.Visited s done out p args) :
    call.Opens filler.target.brackets p.text args := by
  rw [hp.text]
  exact s.opens hp.depth

/-- The next rule is the first one that was not visited, unless its key is there. -/
theorem Visited.next? (hp : filler.Visited s done out p args)
    (hrules : filler.rules = done ++ rule :: rest) (hkey : args.hasKey rule.key = false)
    (hout : rule ∉ out) : filler.next? args out = some rule := by
  refine List.find?_eq_some_iff_append.2 ⟨by simp [hkey, hout], done, rest, hrules, fun r hr => ?_⟩
  rcases hp.settled r hr with h | h <;> simp [h]

theorem Visited.present (hp : filler.Visited s done out p args)
    (hkey : args.hasKey rule.key = true) : filler.Visited s (done ++ [rule]) out p args := by
  refine ⟨hp.text, hp.depth, fun r hr => ?_, fun r hr => List.mem_append_left _ (hp.out_subset hr)⟩
  rcases List.mem_append.1 hr with hr | hr
  · exact hp.settled r hr
  · obtain rfl := List.mem_singleton.1 hr
    exact Or.inl hkey

theorem Visited.leave (hp : filler.Visited s done out p args) (rule : Rule) :
    filler.Visited s (done ++ [rule]) (rule :: out) (p.leave call rule) args := by
  refine ⟨hp.text, hp.depth, fun r hr => ?_, fun r hr => ?_⟩
  · rcases List.mem_append.1 hr with hr | hr
    · exact (hp.settled r hr).imp_right (List.mem_cons_of_mem rule)
    · exact Or.inr (List.mem_cons.2 (Or.inl (List.mem_singleton.1 hr)))
  · rcases List.mem_cons.1 hr with rfl | hr
    · exact List.mem_append_right _ (List.mem_singleton_self r)
    · exact List.mem_append_left _ (hp.out_subset hr)

theorem Visited.put (h : filler.Balanced) {x y indent : Text}
    (hp : filler.Visited s done out p (x ++ ',' :: y)) (hmem : done ++ [rule] ⊆ filler.rules)
    (hindent : ∀ c ∈ indent, isGap c = true) (offset : Nat) :
    filler.Visited s (done ++ [rule]) out
      (p.put call rule offset (s.text (x ++ ',' :: (rule.argument indent ++ ',' :: y))))
      (x ++ ',' :: (rule.argument indent ++ ',' :: y)) := by
  have hname := fun r hr => (isName_of_refusal? h.accepted (hmem (a := r) hr)).1
  have hrule := List.mem_append_right done (List.mem_singleton_self rule)
  refine ⟨rfl, ?_, fun r hr => ?_, fun r hr => List.mem_append_left _ (hp.out_subset hr)⟩
  · rw [h.brackets.depth?_insert_comma (h.depth?_argument (hmem hrule) hindent)]
    exact hp.depth
  · rcases List.mem_append.1 hr with hdone | hown
    · exact (hp.settled r hdone).imp_left fun hkey => Text.hasKey_insert (hname r hr) hkey _
    · obtain rfl := List.mem_singleton.1 hown
      exact Or.inl (hasKey_argument (hname r hr) hindent x y)

/-- A turn, or none, visits the next rule. -/
theorem Balanced.fillCall_visit (h : filler.Balanced) (hnodup : filler.rules.Nodup)
    (hrules : filler.rules = done ++ rule :: rest) (hp : filler.Visited s done out p args)
    (hvisit : Visit s filler.indent rule p args q args') (left : Nat) :
    ∃ out' left', filler.Visited s (done ++ [rule]) out' q args' ∧ left ≤ left' ∧
      filler.fillCall call (left + 1) out p = filler.fillCall call left' out' q := by
  have hone := h.brackets.oneByte
  have hne := h.brackets.differ
  have hout : rule ∉ out := by
    rw [hrules] at hnodup
    exact fun hmem => List.disjoint_of_nodup_append hnodup (hp.out_subset hmem) List.mem_cons_self
  cases hvisit with
  | idle hidle =>
    cases hidle with
    | present hkey =>
      rw [List.append_nil]
      exact ⟨out, left + 1, hp.present hkey, Nat.le_succ left, rfl⟩
    | leftOut hkey hslot =>
      refine ⟨rule :: out, left, hp.leave rule, Nat.le_refl left, ?_⟩
      rw [fillCall, turn_of_leftOut hone hne hp.opens (hp.next? hrules hkey hout) hslot]
      rfl
  | @added x y hgoes =>
    have hgaps : ∀ c ∈ filler.indent.behind (s.upTo x), isGap c = true := Indent.isGap_of_mem_behind
    have hmem : done ++ [rule] ⊆ filler.rules := by
      rw [hrules, List.append_cons done rule rest]
      exact List.subset_append_left _ _
    have hput := hp.put h hmem hgaps (call.argsStart + (x.size + 1))
    refine ⟨out, left, hput, Nat.le_refl left, ?_⟩
    have htext : p.text = s.upTo x ++ ',' :: (y ++ filler.target.brackets.closing :: s.back) := by
      rw [hp.text, s.text_comma]
    have hindent : filler.indentation p.text ((s.upTo x).size + 1) =
        .ok (filler.indent.behind (s.upTo x)) := by
      rw [htext]
      exact indentation_behind_comma filler _ _
    have hopens := hput.opens
    rw [Progress.put_text, s.text_insert] at hopens
    rw [fillCall, turn_of_slot hone hne hp.opens (hp.next? hrules hgoes.key hout) hgoes.slot, ← s.size_upTo,
      add_of_opens hone hne htext hindent hopens, ← s.text_insert,
      hasKey_argument (isName_of_refusal? h.accepted (hmem (by simp))).1 hgaps]
    rfl

theorem Balanced.fillCall_round (h : filler.Balanced) (hnodup : filler.rules.Nodup)
    (hrules : filler.rules = done ++ rest) (hp : filler.Visited s done out p args)
    (hround : Round s filler.indent rest p args q args') {left : Nat} (hleft : rest.length < left) :
    filler.fillCall call left out p = .ok q ∧ q.text = s.text args' := by
  induction hround generalizing done out left with
  | @nil p args =>
    cases left with
    | zero => exact absurd hleft (Nat.not_lt_zero _)
    | succ left =>
      have hnext : filler.next? args out = none := by
        rw [next?_eq_none_iff, hrules, List.append_nil]
        exact hp.settled
      rw [fillCall, turn_of_settled h.brackets.oneByte h.brackets.differ hp.opens hnext]
      exact ⟨rfl, hp.text⟩
  | @cons rule rules p q r args args' args'' hvisit hrest ih =>
    cases left with
    | zero => exact absurd hleft (Nat.not_lt_zero _)
    | succ left =>
      obtain ⟨out', left', hq, hle, hfill⟩ := h.fillCall_visit hnodup hrules hp hvisit left
      rw [List.length_cons] at hleft
      rw [hfill]
      exact ih (by rw [hrules, List.append_assoc]; rfl) hq (by omega)

theorem refusal?_eq_none {target : Target} (hname : constructRefusal? target.construct = none)
    {rules : List Rule} (hrules : ∀ rule ∈ rules, rule.refusal? = none) (indent : Indent) :
    Filler.refusal? ⟨target, rules, indent⟩ = none := by
  rw [refusal?, hname, Option.none_or, List.findSome?_eq_none_iff]
  exact hrules

/-- Filling a call is a round of its rules. -/
theorem Balanced.fillCall_of_round (h : filler.Balanced) (hnodup : filler.rules.Nodup)
    (htext : p.text = s.text args) (hdepth : filler.target.brackets.depth? 0 args = some 0)
    (hround : Round s filler.indent filler.rules p args q args') {budget : Nat}
    (hbudget : filler.rules.length < budget) :
    filler.fillCall call budget [] p = .ok q ∧ q.text = s.text args' :=
  h.fillCall_round hnodup (List.nil_append _).symm
    ⟨htext, hdepth, fun _ hrule => absurd hrule List.not_mem_nil, List.nil_subset _⟩ hround hbudget

end Filler

end ArgFill
