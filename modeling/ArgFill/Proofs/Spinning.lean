import ArgFill.Proofs.Settling

/-!
# Filling that never ends

A literal that closes a bracket which it did not open closes the list it is put into. What stood
behind the anchor is then no argument of the call any more. Two rules with such a literal and one
anchor take turns: each cuts off the argument of the other one and is missing itself thereafter
(`fillCall_twin`). With `Filler.Open.ends` this makes `ends_iff`, which tells the literals that are
safe in every list of rules.
-/

namespace ArgFill

/-- One of two rules with one anchor and one literal. Its key is longer than the literal. -/
def twinRule (literal : Text) (first : Bool) : Rule :=
  ⟨List.replicate (literal.length + 1) (if first then 'a' else 'b'), ['x'], literal⟩

def Filler.twin (construct literal : Text) (indent : Indent) : Filler :=
  ⟨⟨construct, .round⟩, [twinRule literal true, twinRule literal false], indent⟩

/-- What the list of the call holds: an anchor with its value, and the argument of the rule that had
the last turn, up to the bracket of the literal that closes the list. -/
def twinArgs (literal inner : Text) (last : Option Bool) : Text :=
  ['x', ':', '1'] ++ ',' :: match last with
    | none => []
    | some first => '\n' :: ((twinRule literal first).key ++ ':' :: ' ' :: inner)

def twinText (construct literal inner : Text) (last : Option Bool) (back : Text) : Text :=
  construct ++ '(' :: (twinArgs literal inner last ++ ')' :: back)

def nextTwin : Option Bool → Bool
  | none => true
  | some first => !first

namespace Filler

variable {construct literal inner rest : Text}

/-! ## The two rules take turns -/

theorem count_key (literal : Text) (first : Bool) :
    List.count (if first then 'a' else 'b') (twinRule literal first).key = literal.length + 1 := by
  simp [twinRule]

theorem isName_key (literal : Text) (first : Bool) : (twinRule literal first).key.isName = true := by
  have hchars : isNameChar 'a' = true ∧ isNameChar 'b' = true := by decide +kernel
  cases first <;> simp [twinRule, Text.isName, hchars]

/-- The key of a rule is there exactly if the rule had the last turn. -/
theorem hasKey_twinArgs (hliteral : literal = inner ++ ')' :: rest) (last : Option Bool)
    (first : Bool) :
    (twinArgs literal inner last).hasKey (twinRule literal first).key = (last == some first) := by
  have hlen : inner.length < literal.length := by
    rw [hliteral, List.length_append, List.length_cons]
    omega
  have hkey := isName_key literal first
  by_cases hlast : last = some first
  · subst hlast
    have hself := Text.hasKey_self (Text.ne_nil_of_isName hkey) (' ' :: inner)
    rw [twinArgs, Text.hasKey_append_comma hkey]
    have := Text.hasKey_append_lineFeed hkey [] ((twinRule literal first).key ++ ':' :: ' ' :: inner)
    rw [List.nil_append, hself] at this
    simp [this]
  · have hcount : List.count (if first then 'a' else 'b') (twinArgs literal inner last) ≤
        inner.length := by
      have hle : ∀ c, List.count c inner ≤ inner.length := fun c => List.count_le_length
      rcases last with _ | _ | _ <;> cases first <;>
        simp_all [twinArgs, twinRule, List.count_replicate]
    rw [Text.hasKey_eq_false_of_count (c := if first then 'a' else 'b') (by rw [count_key]; omega)]
    simp [hlast]

theorem isName_anchor : Text.isName ['x'] = true := by decide +kernel

theorem slot?_twinArgs (last : Option Bool) : (twinArgs literal inner last).slot? ['x'] = some 4 := by
  have hhead : ∀ kept, Text.slot? (['x', ':', '1'] ++ ',' :: kept) ['x'] = some 4 := by
    intro kept
    have hcolon : Text.colonFollows (':' :: '1' :: ',' :: kept) = true := rfl
    have hanchors := Text.anchorsFrom_anchor isName_anchor (b := none) rfl hcolon 0
    have hargs : ['x', ':', '1'] ++ ',' :: kept = ['x'] ++ ':' :: '1' :: ',' :: kept := rfl
    rw [Text.slot?, Text.anchors, if_neg (by decide), hargs, hanchors]
    rfl
  exact hhead _

theorem next?_twin (hliteral : literal = inner ++ ')' :: rest) (indent : Indent)
    (last : Option Bool) :
    (twin construct literal indent).next? (twinArgs literal inner last) [] =
      some (twinRule literal (nextTwin last)) := by
  simp only [next?, twin, List.find?, hasKey_twinArgs hliteral]
  rcases last with _ | _ | _ <;> rfl

theorem brackets_twin {indent : Indent} : (twin construct literal indent).target.brackets.opening ≠
    (twin construct literal indent).target.brackets.closing := by
  change '(' ≠ ')'
  decide

theorem depth?_twinArgs (hinner : Brackets.round.depth? 0 inner = some 0) (last : Option Bool) :
    Brackets.round.depth? 0 (twinArgs literal inner last) = some 0 := by
  cases last with
  | none => exact rfl
  | some first =>
    have hsplit : twinArgs literal inner (some first) =
        (['x', ':', '1', ',', '\n'] ++ ((twinRule literal first).key ++ [':', ' '])) ++ inner := by
      simp [twinArgs]
    rw [hsplit, Brackets.depth?_append_of_forall_ne, hinner]
    intro c hc
    simp only [List.mem_append, List.mem_cons, List.not_mem_nil, or_false, twinRule,
      List.mem_replicate] at hc
    rcases hc with (rfl | rfl | rfl | rfl | rfl) | ⟨-, rfl⟩ | rfl | rfl <;>
      first | decide | cases first <;> decide

theorem opens_twin (literal : Text) (hinner : Brackets.round.depth? 0 inner = some 0) {call : Call}
    (hstart : call.argsStart = construct.size + 1) (last : Option Bool) (back : Text) :
    call.Opens .round (twinText construct literal inner last back) (twinArgs literal inner last) :=
  ⟨construct, back, rfl, hstart, depth?_twinArgs hinner last⟩

theorem indentation_twin (hname : construct.isQualifiedName = true) (literal : Text)
    (indent : Indent) (kept : Text) :
    (twin construct literal indent).indentation
        ((construct ++ ['(', 'x', ':', '1']) ++ ',' :: kept)
        (Text.size (construct ++ ['(', 'x', ':', '1']) + 1) = .ok [] := by
  cases indent with
  | none => rfl
  | matchAnchor =>
    have hcut : Text.cut? (Text.size (construct ++ ['(', 'x', ':', '1']) + 1)
        ((construct ++ ['(', 'x', ':', '1']) ++ ',' :: kept) =
        some (construct ++ ['(', 'x', ':', '1', ','], kept) :=
      Text.cut?_eq_some_iff.2 ⟨by simp, by simp only [Text.size_append]; rfl⟩
    have hline : Text.lastLine (construct ++ ['(', 'x', ':', '1', ',']) =
        construct ++ ['(', 'x', ':', '1', ','] := by
      refine Text.lastLine_of_not_mem fun hmem => ?_
      rcases List.mem_append.1 hmem with hmem | hmem
      · exact not_isBlankChar_of_mem hname (by decide) hmem
      · exact absurd hmem (by decide)
    obtain ⟨c, w, rfl⟩ := List.exists_cons_of_ne_nil (Text.ne_nil_of_isQualifiedName hname)
    have hgap : isGap c = false := by
      cases hc : isGap c with
      | false => rfl
      | true =>
        exact absurd List.mem_cons_self (not_isBlankChar_of_mem hname (isBlankChar_of_isGap hc))
    simp only [indentation, twin, indentAt, Text.indentAt?, hcut, Option.bind_eq_bind,
      Option.bind_some, hline]
    rw [List.cons_append, List.cons_append, List.takeWhile_cons_of_neg (by simp [hgap])]
    rfl

/-- A turn puts the argument of the rule in that is missing, and so cuts the other one off. -/
theorem turn_twin (hname : construct.isQualifiedName = true)
    (hliteral : literal = inner ++ ')' :: rest) (hinner : Brackets.round.depth? 0 inner = some 0)
    (indent : Indent) {call : Call} (hstart : call.argsStart = construct.size + 1)
    {last : Option Bool} {back : Text} {p : Progress}
    (htext : p.text = twinText construct literal inner last back) :
    ∃ next behind, (twin construct literal indent).turn call [] p = .ok (.added next) ∧
      next.text = twinText construct literal inner (some (nextTwin last)) behind := by
  obtain ⟨kept, hkept⟩ : ∃ kept, twinArgs literal inner last = ['x', ':', '1'] ++ ',' :: kept :=
    ⟨_, rfl⟩
  have hopens := opens_twin literal hinner hstart last back
  have hnow : p.text = (construct ++ ['(', 'x', ':', '1']) ++ ',' :: (kept ++ ')' :: back) := by
    rw [htext, twinText, hkept]
    simp
  have hthen : (construct ++ ['(', 'x', ':', '1']) ++
      ',' :: ((twinRule literal (nextTwin last)).argument [] ++ ',' :: (kept ++ ')' :: back)) =
        twinText construct literal inner (some (nextTwin last))
          (rest ++ ',' :: (kept ++ ')' :: back)) := by
    have hadded : (twinRule literal (nextTwin last)).argument [] =
        '\n' :: ((twinRule literal (nextTwin last)).key ++ ':' :: ' ' :: literal) := rfl
    rw [hadded, twinText, twinArgs]
    nth_rewrite 2 [hliteral]
    simp
  have hplace : call.argsStart + 4 = Text.size (construct ++ ['(', 'x', ':', '1']) + 1 := by
    rw [hstart, Text.size_append]
    rfl
  have hindent := indentation_twin hname literal indent (kept ++ ')' :: back)
  rw [← hnow] at hindent
  have hgrown := opens_twin literal hinner hstart (some (nextTwin last))
    (rest ++ ',' :: (kept ++ ')' :: back))
  rw [← hthen] at hgrown
  have hkey : (twinArgs literal inner (some (nextTwin last))).hasKey
      (twinRule literal (nextTwin last)).key = true := by
    rw [hasKey_twinArgs hliteral, beq_self_eq_true]
  rw [← htext] at hopens
  have hadd := add_of_opens rfl brackets_twin hnow hindent hgrown
  rw [hkey, if_pos rfl] at hadd
  refine ⟨p.put call (twinRule literal (nextTwin last)) (call.argsStart + 4) _, _, ?_, hthen⟩
  rw [turn_of_slot rfl brackets_twin hopens (next?_twin hliteral indent last)
    (slot?_twinArgs last), hplace, hadd]
  rfl

/-- The turns at the call go on for ever. -/
theorem fillCall_twin (hname : construct.isQualifiedName = true)
    (hliteral : literal = inner ++ ')' :: rest) (hinner : Brackets.round.depth? 0 inner = some 0)
    (indent : Indent) {call : Call} (hstart : call.argsStart = construct.size + 1) (budget : Nat)
    {last : Option Bool} {back : Text} {p : Progress}
    (htext : p.text = twinText construct literal inner last back) :
    (twin construct literal indent).fillCall call budget [] p = .error .unsettled := by
  induction budget generalizing last back p with
  | zero => rfl
  | succ budget ih =>
    obtain ⟨next, behind, hturn, hnext⟩ :=
      turn_twin hname hliteral hinner indent hstart htext
    rw [fillCall, hturn]
    exact ih hnext

/-! ## A run of them -/

theorem callAt?_twin (construct literal inner : Text) : Target.callAt? ⟨construct, .round⟩
    ⟨0, none, '(' :: (twinArgs literal inner none ++ [')'])⟩ =
      some (.ok ⟨0, construct.size + 1, construct.size + 5⟩) := by
  have hafter : '(' :: (twinArgs literal inner none ++ [')']) =
      [] ++ '(' :: (twinArgs literal inner none ++ [')']) := rfl
  have hend : Brackets.round.closing? (0 + construct.size + Text.size [] + 1)
      (twinArgs literal inner none ++ [')']) = some (construct.size + 5) := by
    rw [Brackets.closing?, Brackets.closingFrom?_eq_some_iff (by decide)]
    refine ⟨twinArgs literal inner none, [], rfl, rfl, ?_⟩
    rw [Nat.zero_add, Text.size_nil]
    rfl
  have hopening : (Target.mk construct .round).brackets.opening.utf8Size = 1 := rfl
  rw [Target.callAt?_eq rfl rfl (by simp) hafter, Target.callOrFault]
  simp only [hopening, hend]
  simp

theorem locate_twin (hname : construct.isQualifiedName = true) (literal inner : Text) :
    Target.locate ⟨construct, .round⟩ (twinText construct literal inner none []) =
      .ok [⟨0, construct.size + 1, construct.size + 5⟩] := by
  have hw := Text.ne_nil_of_isQualifiedName hname
  have hlater : (Text.occurrencesFrom construct 0 construct.getLast? (0 + construct.size)
      ('(' :: (twinArgs literal inner none ++ [')']))).filterMap
        (Target.callAt? ⟨construct, .round⟩) = [] := by
    refine List.filterMap_eq_nil_iff.2 fun o ho => Target.callAt?_of_opensAt_eq_false ?_
    obtain ⟨pre, hpre, -, -⟩ := Text.mem_occurrencesFrom ho
    obtain ⟨c, v, hv⟩ := List.exists_cons_of_ne_nil (List.append_ne_nil_of_right_ne_nil pre hw)
    rw [hv] at hpre
    -- no other bracket opens
    have hbehind : '(' ∉ twinArgs literal inner none ++ [')'] := by simp [twinArgs]
    rw [(List.cons.inj hpre).2] at hbehind
    exact Target.opensAt_eq_false_of_not_mem fun hmem => hbehind (List.mem_append_right v hmem)
  rw [Target.locate_eq_ok_iff, Target.found_eq hw, twinText, Text.occurrencesFrom_word hw,
    List.filterMap_cons_some (callAt?_twin construct literal inner), hlater]
  rfl

/-- Two rules with a literal that closes a bracket which it did not open. -/
theorem not_ends_twin (hname : constructRefusal? construct = none)
    (hdepth : Brackets.round.depth? 0 literal = none) (indent : Indent) :
    ¬ (twin construct literal indent).Ends (twinText construct literal [] none []) := by
  obtain ⟨inner, rest, hliteral, hinner⟩ := Brackets.exists_of_depth?_eq_none hdepth
  have hqualified := isQualifiedName_of_constructRefusal? hname
  rintro ⟨enough, hends⟩
  have hrun : (twin construct literal indent).apply enough
      (twinText construct literal inner none []) = .error .unsettled := by
    have hcalls : (twin construct literal indent).target.locate
        (twinText construct literal inner none []) =
          .ok [⟨0, construct.size + 1, construct.size + 5⟩] := locate_twin hqualified literal inner
    have hspins : (twin construct literal indent).fillCall
        ⟨0, construct.size + 1, construct.size + 5⟩ enough []
          ⟨twinText construct literal inner none [], [], []⟩ = .error .unsettled :=
      fillCall_twin hqualified hliteral hinner indent rfl enough rfl
    have hrules : (twin construct literal indent).rules ≠ [] := List.cons_ne_nil _ _
    rw [apply_of_locate hcalls hrules, fillCalls, List.reverse_singleton, List.foldlM_cons, hspins]
    rfl
  exact hends enough (Nat.le_refl _) hrun

/-- Nothing is wrong with this filler, and it fills this text for ever. -/
theorem accepted_not_ends :
    refusal? ⟨⟨['P'], .round⟩, [⟨['a', 'a', 'a'], ['x'], ['1', ')']⟩,
        ⟨['b', 'b', 'b'], ['x'], ['1', ')']⟩], .none⟩ = none ∧
      ¬ Ends ⟨⟨['P'], .round⟩, [⟨['a', 'a', 'a'], ['x'], ['1', ')']⟩,
        ⟨['b', 'b', 'b'], ['x'], ['1', ')']⟩], .none⟩ ['P', '(', 'x', ':', '1', ',', ')'] := by
  refine ⟨by decide +kernel, ?_⟩
  have hname : constructRefusal? ['P'] = none := by decide +kernel
  have hdepth : Brackets.round.depth? 0 ['1', ')'] = none := by decide
  exact not_ends_twin hname hdepth .none

/-! ## The literals that are safe -/

theorem refusal?_twinRule (hblank : literal.isBlank = false) (first : Bool) :
    (twinRule literal first).refusal? = none :=
  Rule.refusal?_eq_none_iff.2 ⟨isName_key literal first, isName_anchor, hblank⟩

/-- **Exactly the literals that close no bracket which they did not open are safe.** Filling ends for
every list of rules with such literals, in every text. With any other literal there are two rules and
a text that are filled for ever. -/
theorem ends_iff (hname : constructRefusal? construct = none) (indent : Indent)
    (allowed : Text → Prop) :
    (∀ rules : List Rule, (∀ rule ∈ rules, rule.refusal? = none ∧ allowed rule.literal) →
      ∀ t, Filler.Ends ⟨⟨construct, .round⟩, rules, indent⟩ t) ↔
    ∀ literal, allowed literal → literal.isBlank = false →
      (Brackets.round.depth? 0 literal).isSome := by
  constructor
  · intro hends literal hallowed hblank
    cases hdepth : Brackets.round.depth? 0 literal with
    | some _ => rfl
    | none =>
      refine absurd (hends _ (fun rule hrule => ?_) _) (not_ends_twin hname hdepth indent)
      simp only [List.mem_cons, List.not_mem_nil, or_false] at hrule
      rcases hrule with rfl | rfl <;> exact ⟨refusal?_twinRule hblank _, hallowed⟩
  · intro hliterals rules hrules t
    refine Open.ends ⟨?_, Brackets.standOut_round, fun rule hrule => ?_⟩ t
    · exact Option.or_eq_none_iff.2
        ⟨hname, List.findSome?_eq_none_iff.2 fun rule hrule => (hrules rule hrule).1⟩
    · obtain ⟨haccepted, hallowed⟩ := hrules rule hrule
      obtain ⟨-, -, hblank⟩ := Rule.refusal?_eq_none_iff.1 haccepted
      exact hliterals rule.literal hallowed hblank

theorem ends_plain : constructRefusal? ['P'] = none ∧
    ∀ t, Ends ⟨⟨['P'], .round⟩, [⟨['b'], ['a'], ['1']⟩], .matchAnchor⟩ t := by
  have hname : constructRefusal? ['P'] = none := by decide +kernel
  have hrule : Rule.refusal? ⟨['b'], ['a'], ['1']⟩ = none := by decide +kernel
  refine ⟨hname, (ends_iff hname .matchAnchor (· = ['1'])).2 ?_ _ ?_⟩
  · rintro literal rfl -
    rfl
  · intro rule hmem
    obtain rfl := List.mem_singleton.1 hmem
    exact ⟨hrule, rfl⟩

end Filler

end ArgFill
