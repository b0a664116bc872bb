import ArgFill.Proofs.Round
import Mathlib.Data.List.Chain
import Mathlib.Data.List.Infix

/-!
# Chains of rules

In a chain each rule has the key of the rule before it for its anchor. If the anchor of the first
rule has a slot in a call, and the call has none of the keys, the whole chain goes in there as one
block: the first key of the block is the anchor that the second rule finds, and so on.

* `Text.Confined` : a literal that the reader of an argument list leaves as it came, and in which no
  value ends;
* `slot?_own` : such a literal with its key has its slot at its own end;
* `slot?_behind` : and that is the slot of the key wherever the two are put in;
* `fillCall_chained` : the block.
-/

namespace ArgFill

/-- The number of brackets of any kind that are open behind a text which begins with `depth` of them
open. There is none if a bracket closes that did not open. -/
def Text.nesting? : Nat → Text → Option Nat
  | depth, [] => some depth
  | depth, c :: t =>
    if Quoting.opens c then nesting? (depth + 1) t
    else if Quoting.closes c then
      match depth with
      | 0 => none
      | depth + 1 => nesting? depth t
    else nesting? depth t

/-- A literal without quotes, backslashes and colons whose brackets pair up, the round ones also among
themselves, and which has no comma outside them. -/
structure Text.Confined (t : Text) : Prop where
  plain : ∀ c ∈ t, Quoting.isQuote c = false ∧ c ≠ '\\' ∧ c ≠ ':'
  nested : Text.nesting? 0 t = some 0
  round : Brackets.round.depth? 0 t = some 0
  comma : ∀ x, x ++ [','] <+: t → Text.nesting? 0 x ≠ some 0

instance (t : Text) : Decidable t.Confined :=
  decidable_of_iff ((t.all fun c => !Quoting.isQuote c && c != '\\' && c != ':') = true ∧
      Text.nesting? 0 t = some 0 ∧ Brackets.round.depth? 0 t = some 0 ∧
      ∀ x ∈ t.inits, x ++ [','] <+: t → Text.nesting? 0 x ≠ some 0)
    ⟨fun ⟨hplain, hnested, hround, hcomma⟩ =>
        ⟨by simpa [and_assoc] using hplain, hnested, hround, fun x hx =>
          hcomma x ((List.mem_inits x t).2 ((List.prefix_append x _).trans hx)) hx⟩,
      fun h => ⟨by simpa [and_assoc] using h.plain, h.nested, h.round, fun x _ => h.comma x⟩⟩

/-- Rules each of which has the key of the one before it for its anchor. -/
structure Rule.Linked (rules : List Rule) : Prop where
  accepted : ∀ rule ∈ rules, rule.refusal? = none
  words : ∀ rule ∈ rules, ∀ c ∈ rule.key, isWordChar c = true
  literals : ∀ rule ∈ rules, rule.literal.Confined
  keys : (rules.map Rule.key).Nodup
  chain : rules.IsChain fun rule next => next.anchor = rule.key

theorem Rule.Linked.tail {rule : Rule} {rules : List Rule} (h : Linked (rule :: rules)) :
    Linked rules := by
  have hkeys := h.keys
  rw [List.map_cons, List.nodup_cons] at hkeys
  have hmem : ∀ r ∈ rules, r ∈ rule :: rules := fun r hr => List.mem_cons_of_mem rule hr
  exact ⟨fun r hr => h.accepted r (hmem r hr), fun r hr => h.words r (hmem r hr),
    fun r hr => h.literals r (hmem r hr), hkeys.2, (List.isChain_cons.1 h.chain).2⟩

/-! ## Reading a confined literal -/

theorem Quoting.opens_eq_false_of_closes {c : Char} (h : Quoting.closes c = true) :
    Quoting.opens c = false := by
  rcases closes_cases h with rfl | rfl | rfl <;> rfl

namespace Text

variable {d e : Nat} {c : Char} {t : Text}

theorem nesting?_opening (hc : Quoting.opens c = true) :
    nesting? d (c :: t) = nesting? (d + 1) t := by
  simp [nesting?, hc]

theorem nesting?_closing_succ (hc : Quoting.closes c = true) :
    nesting? (d + 1) (c :: t) = nesting? d t := by
  simp [nesting?, Quoting.opens_eq_false_of_closes hc, hc]

theorem nesting?_closing_zero (hc : Quoting.closes c = true) : nesting? 0 (c :: t) = none := by
  simp [nesting?, Quoting.opens_eq_false_of_closes hc, hc]

theorem nesting?_other (ho : Quoting.opens c = false) (hc : Quoting.closes c = false) :
    nesting? d (c :: t) = nesting? d t := by
  simp [nesting?, ho, hc]

theorem next_eq_of_nesting? (hquote : Quoting.isQuote c = false)
    (h : nesting? d (c :: t) = some e) :
    ∃ d', Reading.next ⟨.outside, d⟩ c = ⟨.outside, d'⟩ ∧ nesting? d' t = some e ∧
      (∀ x, nesting? d (c :: x) = nesting? d' x) ∧ ¬ (d = 0 ∧ Quoting.closes c = true) := by
  cases ho : Quoting.opens c with
  | true =>
    refine ⟨d + 1, by simp [Reading.next, hquote, ho], ?_, fun x => nesting?_opening ho, ?_⟩
    · rwa [nesting?_opening ho] at h
    · rintro ⟨-, hc⟩
      rw [Quoting.opens_eq_false_of_closes hc] at ho
      cases ho
  | false =>
    cases hc : Quoting.closes c with
    | false =>
      refine ⟨d, by simp [Reading.next, hquote, ho, hc], ?_, fun x => nesting?_other ho hc, by simp⟩
      rwa [nesting?_other ho hc] at h
    | true =>
      cases d with
      | zero =>
        rw [nesting?_closing_zero hc] at h
        cases h
      | succ d =>
        refine ⟨d, by simp [Reading.next, hquote, ho, hc], ?_, fun x => nesting?_closing_succ hc,
          by simp⟩
        rwa [nesting?_closing_succ hc] at h

theorem through_of_nesting? (hquote : ∀ c ∈ t, Quoting.isQuote c = false)
    (h : nesting? d t = some e) : Reading.through ⟨.outside, d⟩ t = ⟨.outside, e⟩ := by
  induction t generalizing d with
  | nil =>
    obtain rfl := Option.some.inj h
    rfl
  | cons c t ih =>
    obtain ⟨d', hnext, hrest, -⟩ := next_eq_of_nesting? (hquote c List.mem_cons_self) h
    rw [Reading.through_cons, hnext]
    exact ih (fun c hc => hquote c (List.mem_cons_of_mem _ hc)) hrest

/-- A value does not end before the first comma outside brackets. -/
theorem valueEnd?_of_nesting? (hquote : ∀ c ∈ t, Quoting.isQuote c = false)
    (h : nesting? d t = some e) (hcomma : ∀ x, x ++ [','] <+: t → nesting? d x ≠ some 0)
    (o : Nat) (y : Text) :
    valueEnd? .outside d o (t ++ y) = valueEnd? .outside e (o + t.size) y := by
  induction t generalizing d o with
  | nil =>
    obtain rfl := Option.some.inj h
    rfl
  | cons c t ih =>
    obtain ⟨d', hnext, hrest, hd', hclose⟩ := next_eq_of_nesting? (hquote c List.mem_cons_self) h
    have hgo : ¬ (Reading.mk .outside d = .top ∧ (Quoting.closes c = true ∨ c = ',')) := by
      rintro ⟨htop, hc | rfl⟩
      · exact hclose ⟨congrArg Reading.depth htop, hc⟩
      · exact hcomma [] ⟨t, rfl⟩ (congrArg some (congrArg Reading.depth htop))
    rw [List.cons_append, valueEnd?_cons hgo, hnext, size_cons, ← Nat.add_assoc]
    refine ih (fun c hc => hquote c (List.mem_cons_of_mem _ hc)) hrest (fun x hx => ?_) _
    rw [← hd']
    exact hcomma (c :: x) ((List.prefix_cons_inj c).2 hx)

theorem Confined.through (h : t.Confined) : Reading.top.through t = .top :=
  through_of_nesting? (fun c hc => (h.plain c hc).1) h.nested

theorem Confined.valueEnd? (h : t.Confined) (o : Nat) (y : Text) :
    ArgFill.valueEnd? .outside 0 o (t ++ ',' :: y) = some (o + t.size + 1) := by
  rw [valueEnd?_of_nesting? (fun c hc => (h.plain c hc).1) h.nested h.comma, valueEnd?_comma]

end Text

/-! ## The slot of a key that was put in -/

section

variable {rule : Rule} (hkey : rule.key.isName = true) (hliteral : rule.literal.Confined)

include hkey hliteral

theorem slot?_own (y : Text) : (rule.argument [] ++ ',' :: y).slot? rule.key =
    some ((rule.argument []).size + 1) := by
  have hsplit : rule.argument [] ++ ',' :: y =
      '\n' :: (rule.key ++ ([] ++ ':' :: (' ' :: rule.literal ++ ',' :: y))) := by
    simp [Rule.argument]
  have hnil : ∀ c ∈ ([] : Text), isGap c = true := fun _ hc => absurd hc List.not_mem_nil
  have hspot := Text.spotSlot?_of_anchor hkey hnil (b := some '\n') (by decide) 1
    (' ' :: rule.literal ++ ',' :: y)
  have hvalue : valueEnd? .outside 0 (1 + (rule.key ++ []).size + 1)
      (' ' :: rule.literal ++ ',' :: y) = some ((rule.argument []).size + 1) := by
    rw [List.cons_append, valueEnd?_cons (by decide)]
    refine (hliteral.valueEnd? _ y).trans (congrArg some ?_)
    have hone : ' '.utf8Size = 1 ∧ ':'.utf8Size = 1 ∧ '\n'.utf8Size = 1 := ⟨rfl, rfl, rfl⟩
    simp only [Rule.argument, Text.size_append, Text.size_cons, List.append_nil, List.nil_append]
    omega
  rw [hvalue] at hspot
  rw [hsplit, Text.slot?_eq_slotFrom? hkey, Text.slotFrom?_cons,
    Text.spotSlot?_cons_of_not_isNameChar hkey isNameChar_lineFeed, Option.none_or]
  exact Text.slotFrom?_of_spot (by simp [Text.ne_nil_of_isName hkey]) hspot

/-- In a list that did not have the key, the key gets its slot at the end of what the rule adds. -/
theorem slot?_behind (hword : ∀ c ∈ rule.key, isWordChar c = true) {x y : Text}
    (htop : Reading.top.through x = .top) (habsent : (x ++ ',' :: y).hasKey rule.key = false) :
    (x ++ ',' :: (rule.argument [] ++ ',' :: y)).slot? rule.key =
      some ((x ++ ',' :: rule.argument []).size + 1) := by
  have hx : (x ++ [',']).hasKey rule.key = false := by
    rw [Text.hasKey_append_comma hkey, Bool.or_eq_false_iff] at habsent ⊢
    exact ⟨habsent.1, Text.hasKey_eq_false_of_colon_notMem List.not_mem_nil _⟩
  rw [Text.slot?_append_comma hkey htop, Text.slot?_eq_none_of_hasKey hkey hword hx, Option.none_or,
    slot?_own hkey hliteral, Option.map_some, Text.size_append, Text.size_cons]
  refine congrArg some ?_
  have : ','.utf8Size = 1 := rfl
  omega

end

namespace Filler

/-! ## One link after the other -/

/-- The first rule of a chain has its slot behind the comma between two parts of a list, and the
list has none of the keys. -/
structure Ready (rules : List Rule) (x y : Text) : Prop where
  top : Reading.top.through x = .top
  absent : ∀ rule ∈ rules, (x ++ ',' :: y).hasKey rule.key = false
  slot : ∀ first ∈ rules.head?, (x ++ ',' :: y).slot? first.anchor = some (x.size + 1)

variable {rule : Rule} {rules : List Rule} {x y : Text}

/-- With the argument of the first rule in its place, it is the turn of the next one behind it. -/
theorem Ready.step (h : Rule.Linked (rule :: rules)) (hready : Ready (rule :: rules) x y) :
    Ready rules (x ++ ',' :: rule.argument []) y := by
  have hmem : rule ∈ rule :: rules := List.mem_cons_self
  have hnames : ∀ r ∈ rule :: rules, r.key.isName = true :=
    fun r hr => (Rule.refusal?_eq_none_iff.1 (h.accepted r hr)).1
  have hliteral := h.literals rule hmem
  have hnil : ∀ c ∈ ([] : Text), isGap c = true := fun _ hc => absurd hc List.not_mem_nil
  have hkeys := h.keys
  rw [List.map_cons, List.nodup_cons] at hkeys
  have hgrown : (x ++ ',' :: rule.argument []) ++ ',' :: y =
      x ++ ',' :: (rule.argument [] ++ ',' :: y) := by simp
  refine ⟨?_, fun r hr => ?_, fun next hnext => ?_⟩
  · have hcomma : Reading.top.next ',' = .top := rfl
    rw [Reading.through_append, hready.top, Reading.through_cons, hcomma,
      through_argument_eq (hnames rule hmem) hnil]
    exact hliteral.through
  · have hr' := List.mem_cons_of_mem rule hr
    have hne : rule.key ≠ r.key := fun heq => hkeys.1 (heq ▸ List.mem_map_of_mem hr)
    rw [hgrown, hasKey_insert_argument (hnames r hr') (h.words rule hmem) hne
      (fun hcolon => (hliteral.plain _ hcolon).2.2 rfl) hnil]
    exact hready.absent r hr'
  · rw [(List.isChain_cons.1 h.chain).1 next hnext, hgrown]
    exact slot?_behind (hnames rule hmem) hliteral (h.words rule hmem) hready.top
      (hready.absent rule hmem)

/-- The rules of a chain go in one behind the other. -/
theorem Ready.exists_round (h : Rule.Linked rules) (hready : Ready rules x y) {b : Brackets}
    {call : Call} (s : Setting b call) (p : Progress) :
    ∃ q, Round s .none rules p (x ++ ',' :: y) q
        (x ++ ',' :: ((rules.flatMap fun rule => rule.insertion []) ++ y)) ∧
      q.skips = p.skips := by
  induction rules generalizing x p with
  | nil => exact ⟨p, .nil, rfl⟩
  | cons rule rules ih =>
    have hmem : rule ∈ rule :: rules := List.mem_cons_self
    have hvisit : Visit s .none rule p (x ++ ',' :: y)
        (p.put call rule (call.argsStart + (x.size + 1))
          (s.text (x ++ ',' :: (rule.argument [] ++ ',' :: y))))
        (x ++ ',' :: (rule.argument [] ++ ',' :: y)) :=
      .added ⟨hready.absent rule hmem, hready.slot rule rfl, hready.top⟩
    have hgrown : x ++ ',' :: (rule.argument [] ++ ',' :: y) =
        (x ++ ',' :: rule.argument []) ++ ',' :: y := by simp
    have hblock : x ++ ',' :: (((rule :: rules).flatMap fun rule => rule.insertion []) ++ y) =
        (x ++ ',' :: rule.argument []) ++ ',' ::
          ((rules.flatMap fun rule => rule.insertion []) ++ y) := by simp [Rule.insertion_eq]
    rw [hgrown] at hvisit
    obtain ⟨q, hround, hskips⟩ := ih h.tail (hready.step h) _
    rw [hblock]
    exact ⟨q, .cons hvisit hround, hskips⟩

/-- **A chain whose first rule has a slot goes in there as one block**, if the call has none of the
keys. No rule is left out. -/
theorem fillCall_chained {target : Target} (hname : constructRefusal? target.construct = none)
    (hround : target.brackets = .round) (h : Rule.Linked rules) {t : Text} {call : Call}
    (hcall : .ok call ∈ target.calls t)
    (habsent : ∀ rule ∈ rules, isPresent t call rule.key = .ok false) {first : Rule}
    (hfirst : rules.head? = some first) {offset : Nat} (hslot : slot t call first = .ok offset)
    {p : Progress} (htext : p.text = t) {budget : Nat} (hbudget : rules.length < budget) :
    ∃ q, fillCall ⟨target, rules, .none⟩ call budget [] p = .ok q ∧ q.skips = p.skips ∧
      t.insert? offset (rules.flatMap fun rule => rule.insertion []) = some q.text := by
  have hbalanced : Balanced ⟨target, rules, .none⟩ :=
    ⟨refusal?_eq_none hname h.accepted .none, hround ▸ Brackets.standOut_round,
      fun rule hrule => hround ▸ (h.literals rule hrule).round⟩
  obtain ⟨args, hargs⟩ := Target.exists_hasArgs_of_mem_found (Target.mem_found_of_mem_calls hcall)
  obtain ⟨args', place, hargs', hplace, rfl⟩ := exists_place_of_slot hslot
  obtain rfl := Option.some.inj (hargs'.symm.trans hargs.args?)
  have hdepth := (hargs.opens rfl).depth?_eq
  obtain ⟨s, rfl⟩ := (hargs.opens rfl).exists_setting
  obtain ⟨-, hanchor, -⟩ :=
    Rule.refusal?_eq_none_iff.1 (h.accepted first (List.mem_of_mem_head? hfirst))
  obtain ⟨x, y, rfl, rfl, htop⟩ := Text.slot?_eq_some hanchor hplace
  have hready : Ready rules x y := by
    refine ⟨htop, fun rule hrule => ?_, fun rule hrule => ?_⟩
    · have hpresent := habsent rule hrule
      rw [isPresent_of_hasArgs hargs] at hpresent
      exact Except.ok.inj hpresent
    · obtain rfl := Option.some.inj (hfirst.symm.trans hrule)
      exact hplace
  obtain ⟨q, hvisits, hskips⟩ := hready.exists_round h s p
  obtain ⟨hfill, hq⟩ := hbalanced.fillCall_of_round (List.Nodup.of_map _ h.keys) htext hdepth hvisits
    hbudget
  refine ⟨q, hfill, hskips, Text.insert?_eq_some_iff.2
    ⟨s.upTo x ++ [','], y ++ target.brackets.closing :: s.back, ?_, ?_, ?_⟩⟩
  · simp [Setting.text, Setting.upTo]
  · rw [Text.size_append, ← s.size_upTo]
    rfl
  · rw [hq]
    simp [Setting.text, Setting.upTo]

theorem fillCall_chained_sample :
    let target : Target := ⟨['P'], .round⟩
    let first : Rule := ⟨['b'], ['é'], "f(1, [2])".toList⟩
    let rules : List Rule := [first, ⟨['c'], ['b'], ['3']⟩, ⟨['d'], ['c'], ['4']⟩]
    let t : Text := "P('é: 0,', é: (1, 2), z)".toList
    let call : Call := ⟨0, 2, 25⟩
    constructRefusal? target.construct = none ∧ target.brackets = .round ∧ Rule.Linked rules ∧
    .ok call ∈ target.calls t ∧ (∀ rule ∈ rules, isPresent t call rule.key = .ok false) ∧
    rules.head? = some first ∧ slot t call first = .ok 23 ∧ rules.length < 4 ∧
    ∃ q, fillCall ⟨target, rules, .none⟩ call 4 [] ⟨t, [], []⟩ = .ok q ∧ q.skips = [] ∧
      t.insert? 23 (rules.flatMap fun rule => rule.insertion []) = some q.text := by
  intro target first rules t call
  have hname : constructRefusal? target.construct = none := by decide +kernel
  have hwords : (rules.all fun rule => rule.key.all isWordChar) = true := by decide
  have hlinked : Rule.Linked rules :=
    ⟨by decide +kernel, fun rule hrule => List.all_eq_true.1 (List.all_eq_true.1 hwords rule hrule),
      by decide +kernel, by decide, by decide⟩
  have hcall : .ok call ∈ target.calls t := by decide +kernel
  have habsent : ∀ rule ∈ rules, isPresent t call rule.key = .ok false := by decide +kernel
  have hslot : slot t call first = .ok 23 := by decide +kernel
  have hbudget : rules.length < 4 := by decide
  exact ⟨hname, rfl, hlinked, hcall, habsent, rfl, hslot, hbudget,
    fillCall_chained hname rfl hlinked hcall habsent rfl hslot rfl hbudget⟩

end Filler

end ArgFill
