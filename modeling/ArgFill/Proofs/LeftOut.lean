import ArgFill.Proofs.Plain
import Mathlib.Data.List.Perm.Subperm

/-!
# Rules that stay left out

A rule is left out at a call when its anchor has no slot there. Later rules may add arguments to the
same list, and one of these might be the anchor. It is not, if the rules are in dependency order:
whatever could add the anchor was dealt with before. So the rules left out at a call find no slot
at the end either, and `apply_left_out` says that a second run leaves them out again and changes
nothing.

* `anchorFree_argument` : what a rule adds anchors nothing but the rule's own key;
* `invariant_stuck` : the rules left out at a call have no slot, and will have none.
-/

namespace ArgFill

/-! ## Anchors in what a rule adds -/

theorem eq_append_of_append_name {front key pre name gaps : Text}
    (hfront : ∀ c ∈ front, isNameChar c = false) (hkey : key.isName = true)
    (hname : name.isName = true) (hgaps : ∀ c ∈ gaps, isGap c = true)
    (h : front ++ key = pre ++ (name ++ gaps)) :
    gaps = [] ∧ ∃ late, key = late ++ name ∧ pre = front ++ late := by
  have hends : gaps = [] := by
    by_contra hne
    -- the last character would be a gap and belong to the key
    have hlast := congrArg List.getLast? h
    rw [← List.append_assoc, List.getLast?_append_of_ne_nil _ (Text.ne_nil_of_isName hkey),
      List.getLast?_append_of_ne_nil _ hne,
      List.getLast?_eq_some_getLast (Text.ne_nil_of_isName hkey),
      List.getLast?_eq_some_getLast hne, Option.some.injEq] at hlast
    have hgap := isNameChar_eq_false_of_isGap (hgaps _ (List.getLast_mem hne))
    rw [← hlast, Text.isNameChar_of_mem hkey (List.getLast_mem _)] at hgap
    cases hgap
  refine ⟨hends, ?_⟩
  rw [hends, List.append_nil] at h
  rcases List.append_eq_append_iff.1 h with ⟨late, hpre, hlate⟩ | ⟨late, hpre, hlate⟩
  · exact ⟨late, hlate, hpre⟩
  · obtain rfl : late = [] := by
      refine List.eq_nil_iff_forall_not_mem.2 fun c hc => ?_
      have hc' := hfront c (by rw [hpre]; exact List.mem_append_right _ hc)
      rw [Text.isNameChar_of_mem hname (by rw [hlate]; exact List.mem_append_left _ hc)] at hc'
      cases hc'
    exact ⟨[], hlate.symm, by rw [hpre, List.append_nil, List.append_nil]⟩

section

variable {rule : Rule} {indent : Text} (hkey : rule.key.isName = true)
  (hword : ∀ c ∈ rule.key, isWordChar c = true) (hplain : ∀ c ∈ rule.literal, isPlain c = true)
  (hindent : ∀ c ∈ indent, isGap c = true)

include hkey hplain hindent

/-- The only colon in what a rule adds is the one behind the key. -/
theorem argument_eq_append_colon {front value : Text}
    (h : rule.argument indent = front ++ ':' :: value) : '\n' :: indent ++ rule.key = front := by
  have hbefore : ':' ∉ '\n' :: indent ++ rule.key := by
    rw [List.mem_append, not_or]
    refine ⟨fun hc => ?_, Text.not_mem_of_isName hkey isNameChar_colon⟩
    rcases List.mem_cons.1 hc with hc | hc
    · cases hc
    · exact absurd (hindent _ hc) (by decide)
  have hbehind : ':' ∉ ' ' :: rule.literal := by
    rw [List.mem_cons, not_or]
    exact ⟨by decide, fun hc => (isPlain_iff.1 (hplain _ hc)).2.2.1 rfl⟩
  have hsplit : ('\n' :: indent ++ rule.key) ++ ':' :: (' ' :: rule.literal) =
      front ++ ':' :: value := by
    simpa [Rule.argument] using h
  exact ((List.append_cons_inj_of_notMem hbefore hbehind).1 hsplit).1

include hword

/-- The only anchor in what a rule adds is the key of the rule. -/
theorem anchorFree_argument {name : Text} (hname : name.isName = true) (hne : name ≠ rule.key) :
    Text.AnchorFree name ',' (rule.argument indent) := by
  intro pre gaps value heq hgaps
  have hblank : ∀ c ∈ '\n' :: indent, isNameChar c = false := by
    intro c hc
    rcases List.mem_cons.1 hc with rfl | hc
    · exact isNameChar_lineFeed
    · exact isNameChar_eq_false_of_isGap (hindent c hc)
  rw [← List.append_assoc, ← List.append_assoc] at heq
  have hsame := argument_eq_append_colon hkey hplain hindent heq
  rw [List.append_assoc] at hsame
  obtain ⟨-, late, hkey', rfl⟩ := eq_append_of_append_name hblank hkey hname hgaps hsame
  -- it would be a proper tail of the key
  have hlate : late ≠ [] := by
    rintro rfl
    exact hne hkey'.symm
  have hlast := hword (late.getLast hlate)
    (by rw [hkey']; exact List.mem_append_left _ (List.getLast_mem hlate))
  rw [List.getLast?_append, List.getLast?_eq_some_getLast hlate]
  simp [endsWord, hlast]

end

/-! ## Rules in dependency order -/

namespace Filler

/-- A filler with round brackets and plain literals whose rules are in dependency order: no rule is
anchored at its own key or at the key of a later rule. -/
structure Ordered (filler : Filler) : Prop where
  accepted : filler.refusal? = none
  brackets : filler.target.brackets = .round
  keys : ∀ rule ∈ filler.rules, ∀ c ∈ rule.key, isWordChar c = true
  literals : ∀ rule ∈ filler.rules, ∀ c ∈ rule.literal, isPlain c = true
  self : ∀ rule ∈ filler.rules, rule.anchor ≠ rule.key
  order : filler.rules.Pairwise fun rule later => rule.anchor ≠ later.key

theorem Ordered.plain {filler : Filler} (h : filler.Ordered) : filler.Plain :=
  ⟨h.accepted, h.brackets, h.literals⟩

theorem Ordered.inert {filler : Filler} (h : filler.Ordered) : filler.Inert :=
  h.plain.inert

/-- Whatever could add the anchor of the next rule comes before it, so it is dealt with. -/
theorem Ordered.settled_of_anchor {filler : Filler} (h : filler.Ordered) {args : Text}
    {out : List Rule} {rule dep : Rule} (hnext : filler.next? args out = some rule)
    (hdep : dep ∈ filler.rules) (hkey : dep.key = rule.anchor) :
    args.hasKey dep.key = true ∨ dep ∈ out := by
  obtain ⟨-, before, behind, hrules, hpassed⟩ := List.find?_eq_some_iff_append.1 hnext
  have horder := h.order
  rw [hrules, List.pairwise_append] at horder
  rw [hrules, List.mem_append, List.mem_cons] at hdep
  rcases hdep with hdep | rfl | hdep
  · have := hpassed dep hdep
    simp only [Bool.not_and, Bool.not_not, Bool.or_eq_true, List.contains_eq_mem,
      decide_eq_true_eq] at this
    exact this
  · exact absurd hkey.symm (h.self dep (List.mem_of_find?_eq_some hnext))
  · exact absurd hkey.symm ((List.pairwise_cons.1 horder.2.1).1 dep hdep)

/-! ## Left out for good -/

/-- What holds of the rules left out while a call is filled. The rules that could add their anchors
have been dealt with. -/
structure Stuck (filler : Filler) (budget : Nat) (out : List Rule) (left : Nat) (args : Text) :
    Prop where
  mem : ∀ rule ∈ out, rule ∈ filler.rules
  slot : ∀ rule ∈ out, args.slot? rule.anchor = none
  anchors : ∀ rule ∈ out, ∀ dep ∈ filler.rules, dep.key = rule.anchor →
    args.hasKey dep.key = true ∨ dep ∈ out
  turns : out.length + left ≤ budget

/-- What holds of a call that is settled: what is missing has no slot, and a run with the same
budget has the turns to find that out again. -/
def Exhausted (filler : Filler) (budget : Nat) (args : Text) : Prop :=
  ∃ out : List Rule, (∀ rule ∈ filler.rules, args.hasKey rule.key = true ∨ rule ∈ out) ∧
    (∀ rule ∈ out, args.slot? rule.anchor = none) ∧ (out.length < budget ∨ filler.rules = [])

theorem invariant_stuck {filler : Filler} (h : filler.Ordered) (budget : Nat) {calls : List Call}
    (hapart : ∀ a ∈ calls, ∀ c ∈ calls, a.start < c.start → a.argsEnd < c.start) :
    filler.Invariant budget calls (fun _ => True)
      (fun _ out left _ args => filler.Stuck budget out left args)
      (fun _ _ args => filler.Exhausted budget args) where
  enter _ _ _ _ :=
    ⟨fun _ hr => (nomatch hr), fun _ hr => (nomatch hr), fun _ hr => (nomatch hr), by simp⟩
  settled {call out left p args} hstuck hleft hnext := by
    refine ⟨trivial, out, next?_eq_none_iff.1 hnext, hstuck.slot, ?_⟩
    have := hstuck.turns
    cases left with
    | zero => exact Or.inr (hleft rfl)
    | succ left => exact Or.inl (by omega)
  leftOut {call out left p args rule} hstuck hnext hslot := by
    have hrule := (of_next?_eq_some hnext).1
    refine ⟨fun r hr => ?_, fun r hr => ?_, fun r hr dep hdep heq => ?_, ?_⟩
    · rcases List.mem_cons.1 hr with rfl | hr
      · exact hrule
      · exact hstuck.mem r hr
    · rcases List.mem_cons.1 hr with rfl | hr
      · exact hslot
      · exact hstuck.slot r hr
    · rcases List.mem_cons.1 hr with rfl | hr
      · exact (h.settled_of_anchor hnext hdep heq).imp_right (List.mem_cons_of_mem _)
      · exact (hstuck.anchors r hr dep hdep heq).imp_right (List.mem_cons_of_mem _)
    · have := hstuck.turns
      rw [List.length_cons]
      omega
  added {call out left p rule front x y back indent} hstuck hnext htop hindent _ hkey := by
    obtain ⟨hrule, hmissing, hnot⟩ := of_next?_eq_some hnext
    have hname := (isName_of_refusal? h.accepted hrule).1
    refine ⟨hstuck.mem, fun r hr => ?_, fun r hr dep hdep heq => ?_, ?_⟩
    · have hne : r.anchor ≠ rule.key := by
        intro heq
        rcases hstuck.anchors r hr rule hrule heq.symm with hpresent | hout
        · rw [hpresent] at hmissing
          cases hmissing
        · exact hnot hout
      have hanchor := (isName_of_refusal? h.accepted (hstuck.mem r hr)).2
      exact Text.slot?_insert hanchor htop
        (through_argument hname (h.literals rule hrule) hindent)
        (anchorFree_argument hname (h.keys rule hrule) (h.literals rule hrule) hindent hanchor hne)
        (hstuck.slot r hr)
    · refine (hstuck.anchors r hr dep hdep heq).imp_left fun hpresent => ?_
      exact Text.hasKey_insert (isName_of_refusal? h.accepted hdep).1 hpresent _
    · have := hstuck.turns
      omega
  after_leave _ hexhausted _ _ _ := hexhausted
  after_put _ hexhausted _ hcall hdone hlt hargs _ _ := by
    rcases hargs with rfl | ⟨hnot, -⟩
    · exact hexhausted
    · exact absurd (hapart _ hcall _ hdone hlt) hnot

/-! ## The second run -/

/-- Turns at a call where the missing rules have no slot leave these out, one by one, and add
nothing. -/
theorem fillCall_of_exhausted {filler : Filler} (hinert : filler.Inert) {call : Call}
    {args : Text} {stuck : List Rule}
    (hall : ∀ rule ∈ filler.rules, args.hasKey rule.key = true ∨ rule ∈ stuck)
    (hslot : ∀ rule ∈ stuck, args.slot? rule.anchor = none) {left : Nat} {out : List Rule}
    {p : Progress} (hopens : call.Opens filler.target.brackets p.text args) (hdistinct : out.Nodup)
    (hsub : out ⊆ stuck) (hleft : stuck.length < out.length + left) :
    ∃ last, filler.fillCall call left out p = .ok last ∧ last.text = p.text := by
  induction left generalizing out p with
  | zero =>
    have := (List.subperm_of_subset hdistinct hsub).length_le
    omega
  | succ left ih =>
    have hone := hinert.brackets.oneByte
    have hne := hinert.brackets.differ
    rw [fillCall]
    cases hnext : filler.next? args out with
    | none =>
      rw [turn_of_settled hone hne hopens hnext]
      exact ⟨p, rfl, rfl⟩
    | some rule =>
      obtain ⟨hrule, hmissing, hnot⟩ := of_next?_eq_some hnext
      have hstuck : rule ∈ stuck := (hall rule hrule).resolve_left (by simp [hmissing])
      rw [turn_of_leftOut hone hne hopens hnext (hslot rule hstuck)]
      refine ih (p := p.leave call rule) hopens (List.nodup_cons.2 ⟨hnot, hdistinct⟩)
        (List.cons_subset.2 ⟨hstuck, hsub⟩) ?_
      rw [List.length_cons]
      omega

theorem fillCalls_of_exhausted {filler : Filler} (hinert : filler.Inert) {budget : Nat} {u : Text}
    (hrules : filler.rules ≠ []) {calls : List Call} {p : Progress} (hp : p.text = u)
    (hcalls : ∀ call ∈ calls, ∃ args, call.HasArgs filler.target.brackets u args ∧
      filler.Exhausted budget args) :
    ∃ last, filler.fillCalls budget calls p = .ok last ∧ last.text = u := by
  induction calls generalizing p with
  | nil => exact ⟨p, rfl, hp⟩
  | cons call calls ih =>
    obtain ⟨args, hargs, stuck, hall, hslot, hturns⟩ := hcalls call List.mem_cons_self
    have hopens : call.Opens filler.target.brackets p.text args := hp ▸ hargs.opens rfl
    have hleft : stuck.length < ([] : List Rule).length + budget := by simpa [hrules] using hturns
    obtain ⟨next, hnext, htext⟩ :=
      fillCall_of_exhausted hinert hall hslot hopens List.nodup_nil (List.nil_subset _) hleft
    obtain ⟨last, hlast, hlasttext⟩ :=
      ih (htext.trans hp) fun c hc => hcalls c (List.mem_cons_of_mem _ hc)
    refine ⟨last, ?_, hlasttext⟩
    rw [fillCalls, List.foldlM_cons, hnext]
    exact hlast

theorem argsEnd_lt_start {filler : Filler} (h : filler.Ordered) {t : Text} {calls : List Call}
    (hlocate : filler.target.locate t = .ok calls)
    (hflat : ∀ a ∈ calls, ∀ c ∈ calls, a.contains c = false) :
    ∀ a ∈ calls, ∀ c ∈ calls, a.start < c.start → a.argsEnd < c.start := by
  intro a ha c hc hlt
  refine (h.plain.apart_or_contains hlocate ha hc hlt).resolve_right ?_
  rw [hflat a ha c hc]
  exact Bool.false_ne_true

/-- **A second run changes nothing, even where rules were left out.** No located call may contain
another one. -/
theorem apply_left_out {filler : Filler} (h : filler.Ordered) {t : Text} {calls : List Call}
    (hlocate : filler.target.locate t = .ok calls)
    (hflat : ∀ a ∈ calls, ∀ c ∈ calls, a.contains c = false) {budget : Nat} {u : Text}
    {report : Report} (hrun : filler.apply budget t = .ok (u, report)) :
    ∃ again, filler.apply budget u = .ok (u, again) := by
  have hinert := h.inert
  have hapart := argsEnd_lt_start h hlocate hflat
  obtain ⟨p, g, rfl, -, -, -, hlocated, hdone⟩ :=
    (invariant_stuck h budget hapart).of_apply hinert hlocate trivial hrun
  by_cases hrules : filler.rules = []
  · exact ⟨_, apply_of_rules_nil hlocated hrules⟩
  · have hfill : ∃ last, filler.fillCalls budget (calls.map (Call.under g)).reverse
        ⟨p.text, [], []⟩ = .ok last ∧ last.text = p.text :=
      fillCalls_of_exhausted hinert hrules rfl (by simpa using hdone)
    obtain ⟨last, hlast, htext⟩ := hfill
    rw [apply_of_locate hlocated hrules, hlast, Except.map, htext]
    exact ⟨_, rfl⟩

theorem apply_left_out_sample : sample.Ordered ∧
    sample.target.locate "P(a: 0,)".toList = .ok [⟨0, 2, 7⟩] ∧
    (∀ a ∈ [Call.mk 0 2 7], ∀ c ∈ [Call.mk 0 2 7], a.contains c = false) ∧
    sample.apply 3 "P(a: 0,)".toList =
      .ok ("P(a: 0,\nb: 1,)".toList, ⟨['P'], 1, [⟨0, 7, ['b']⟩], [⟨0, ['d'], ['z']⟩]⟩) ∧
    ∃ again, sample.apply 3 "P(a: 0,\nb: 1,)".toList = .ok ("P(a: 0,\nb: 1,)".toList, again) := by
  have hordered : sample.Ordered := by
    refine ⟨inert_sample.accepted, rfl, ?_, ?_, by decide, by decide⟩ <;> intro rule hrule c hc <;>
      simp only [sample, List.mem_cons, List.not_mem_nil, or_false] at hrule <;>
      rcases hrule with rfl | rfl <;> obtain rfl := List.mem_singleton.1 hc <;> decide
  have hlocate : sample.target.locate "P(a: 0,)".toList = .ok [⟨0, 2, 7⟩] := by rfl
  have hflat : ∀ a ∈ [Call.mk 0 2 7], ∀ c ∈ [Call.mk 0 2 7], a.contains c = false := by decide
  exact ⟨hordered, hlocate, hflat, apply_sample,
    apply_left_out hordered hlocate hflat apply_sample⟩

end Filler

end ArgFill
