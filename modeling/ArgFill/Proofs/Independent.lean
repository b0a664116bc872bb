import ArgFill.Proofs.Plain
import ArgFill.Proofs.Round

/-!
# Independent rules

Two rules are independent if neither has the other's key for its own key or for its anchor. With
plain literals of one line it does not matter which of them comes first, unless both would add at the
same place.

What one of them adds is in no quotes and brackets, so the other's slot is moved by it and nothing
else (`Independent.slot?_insert`), and the line on which the other adds begins as before
(`Indent.behind_insert`). So the visits of the two rules commute (`Visit.comm`), and with them the
two rounds (`fillCall_comm`).
-/

namespace ArgFill

/-- A rule with keys of word characters and a plain literal of one line. -/
structure Rule.Simple (rule : Rule) : Prop where
  accepted : rule.refusal? = none
  key : ∀ c ∈ rule.key, isWordChar c = true
  anchor : ∀ c ∈ rule.anchor, isWordChar c = true
  literal : ∀ c ∈ rule.literal, isPlain c = true ∧ c ≠ '\n'

/-- Two simple rules that do not ask for each other. -/
structure Rule.Independent (first second : Rule) : Prop where
  simple : first.Simple ∧ second.Simple
  keys : first.key ≠ second.key
  anchors : first.anchor ≠ second.key ∧ second.anchor ≠ first.key

namespace Rule

variable {rule first second : Rule}

theorem Simple.isName (h : rule.Simple) : rule.key.isName = true ∧ rule.anchor.isName = true := by
  obtain ⟨hkey, hanchor, -⟩ := refusal?_eq_none_iff.1 h.accepted
  exact ⟨hkey, hanchor⟩

theorem Simple.through_argument (h : rule.Simple) {gaps : Text}
    (hgaps : ∀ c ∈ gaps, isGap c = true) : Reading.top.through (rule.argument gaps) = .top :=
  ArgFill.through_argument h.isName.1 (fun c hc => (h.literal c hc).1) hgaps

theorem Simple.colon_notMem (h : rule.Simple) : ':' ∉ rule.literal :=
  fun hmem => absurd (h.literal _ hmem).1 (by decide)

theorem Independent.symm (h : first.Independent second) : second.Independent first :=
  ⟨h.simple.symm, h.keys.symm, h.anchors.symm⟩

/-! ## What one rule adds, as the other sees it -/

section

variable (h : first.Independent second) {gaps x : Text} (hgaps : ∀ c ∈ gaps, isGap c = true)

include h hgaps

theorem Independent.hasKey_insert (x y : Text) :
    (x ++ ',' :: (first.argument gaps ++ ',' :: y)).hasKey second.key =
      (x ++ ',' :: y).hasKey second.key :=
  hasKey_insert_argument h.simple.2.isName.1 h.simple.1.key h.keys h.simple.1.colon_notMem hgaps x y

theorem Independent.slot?_insert (htop : Reading.top.through x = .top) (y : Text) :
    (x ++ ',' :: (first.argument gaps ++ ',' :: y)).slot? second.anchor =
      ((x ++ ',' :: y).slot? second.anchor).map
        (movedBy (x.size + 2) ((first.argument gaps).size + 1)) := by
  have hanchor := h.simple.2.isName.2
  have hkey : (first.argument gaps ++ [',']).hasKey second.anchor = false := by
    rw [Text.hasKey_append_comma hanchor, hasKey_argument_of_ne hanchor h.simple.1.key h.anchors.2.symm
      h.simple.1.colon_notMem hgaps, Text.hasKey_eq_false_of_colon_notMem List.not_mem_nil]
    rfl
  exact Text.slot?_insert_moved hanchor htop (h.simple.1.through_argument hgaps)
    (Text.slot?_eq_none_of_hasKey hanchor h.simple.2.anchor hkey) y

end

end Rule

/-- An argument of one line changes no indentation further on: the line that it begins is indented
like the one in which it was put. -/
theorem Indent.behind_insert {rule : Rule} (hkey : rule.key.isName = true)
    (hline : '\n' ∉ rule.literal) (indent : Indent) (u m : Text) :
    indent.behind (u ++ ',' :: (rule.argument (indent.behind u) ++ ',' :: m)) =
      indent.behind (u ++ ',' :: m) := by
  cases indent with
  | none => rfl
  | matchAnchor =>
    unfold behind
    by_cases hm : '\n' ∈ m
    · -- the line begins behind what was put in
      obtain ⟨above, line, rfl⟩ := List.append_of_mem hm
      have hgrown : ∀ z, u ++ ',' :: (z ++ ',' :: (above ++ '\n' :: line)) =
          (u ++ ',' :: (z ++ ',' :: above)) ++ '\n' :: line := by simp
      have hold : u ++ ',' :: (above ++ '\n' :: line) = (u ++ ',' :: above) ++ '\n' :: line := by simp
      simp only [hgrown, hold, Text.lastLine_append_lineFeed]
    · -- the line begins with what was put in, which is indented like the line before it
      set gaps := u.lastLine.takeWhile isGap
      have hgaps : ∀ c ∈ gaps, isGap c = true := fun c hc => List.all_eq_true.1 List.all_takeWhile c hc
      have hgrown : u ++ ',' :: (rule.argument gaps ++ ',' :: m) =
          (u ++ [',']) ++ '\n' :: (gaps ++ (rule.key ++ ':' :: ' ' :: (rule.literal ++ ',' :: m))) := by
        simp [Rule.argument]
      have hnot : '\n' ∉ gaps ++ (rule.key ++ ':' :: ' ' :: (rule.literal ++ ',' :: m)) := by
        have hgap : '\n' ∉ gaps := fun hmem => absurd (hgaps _ hmem) (by decide)
        have hname := Text.not_mem_of_isName hkey isNameChar_lineFeed
        simp [hgap, hname, hline, hm]
      have hbegin : (rule.key ++ ':' :: ' ' :: (rule.literal ++ ',' :: m)).takeWhile isGap = [] := by
        obtain ⟨c, k, hk⟩ := List.exists_cons_of_ne_nil (Text.ne_nil_of_isName hkey)
        have hc : ¬ isGap c = true := by
          intro hc
          exact Text.not_mem_of_isName hkey (isNameChar_eq_false_of_isGap hc)
            (hk ▸ List.mem_cons_self)
        rw [hk, List.cons_append, List.takeWhile_cons_of_neg hc]
      have hcomma : '\n' ∉ ',' :: m := by simp [hm]
      rw [hgrown, Text.lastLine_append_lineFeed, Text.lastLine_of_not_mem hnot,
        List.takeWhile_append_of_pos hgaps, hbegin, List.append_nil,
        Text.lastLine_append_of_not_mem hcomma, Text.takeWhile_append_cons (by decide)]

namespace Filler

variable {first second : Rule} {b : Brackets} {call : Call} {s : Setting b call} {indent : Indent}
  {p q r : Progress} {args args₁ args₂ : Text}

/-- Two results report the same keys added and the same rules left out, each in some order. -/
def Progress.Agrees (q r : Progress) : Prop :=
  (q.insertions.map Insertion.key).Perm (r.insertions.map Insertion.key) ∧ q.skips.Perm r.skips

theorem Idle.insert (h : first.Independent second) {gaps x y : Text}
    (hgaps : ∀ c ∈ gaps, isGap c = true) (htop : Reading.top.through x = .top) {skips : List Skip}
    (hidle : Idle call second (x ++ ',' :: y) skips) :
    Idle call second (x ++ ',' :: (first.argument gaps ++ ',' :: y)) skips := by
  cases hidle with
  | present hkey => exact .present ((h.hasKey_insert hgaps x y).trans hkey)
  | leftOut hkey hslot =>
    refine .leftOut ((h.hasKey_insert hgaps x y).trans hkey) ?_
    rw [h.slot?_insert hgaps htop, hslot]
    rfl

section

variable (h : first.Independent second) {x m y gaps : Text}
  (hfirst : GoesIn first x (m ++ ',' :: y)) (hsecond : GoesIn second (x ++ ',' :: m) y)
  (hgaps : ∀ c ∈ gaps, isGap c = true)

include h hfirst hsecond hgaps

/-- A rule that adds further on still does, past what the other one added. -/
theorem GoesIn.behind : GoesIn second (x ++ ',' :: (first.argument gaps ++ ',' :: m)) y := by
  have hold : (x ++ ',' :: m) ++ ',' :: y = x ++ ',' :: (m ++ ',' :: y) := by simp
  have hgrown : (x ++ ',' :: (first.argument gaps ++ ',' :: m)) ++ ',' :: y =
      x ++ ',' :: (first.argument gaps ++ ',' :: (m ++ ',' :: y)) := by simp
  have hmoved : movedBy (x.size + 2) ((first.argument gaps).size + 1) ((x ++ ',' :: m).size + 1) =
      (x ++ ',' :: (first.argument gaps ++ ',' :: m)).size + 1 := by
    have : ','.utf8Size = 1 := rfl
    simp only [Text.size_append, Text.size_cons]
    rw [movedBy_of_le (by omega)]
    omega
  have hcomma : ∀ z, Reading.top.through (',' :: z) = Reading.top.through z := fun _ => rfl
  obtain ⟨hkey, hslot, htop⟩ := hsecond
  rw [hold] at hkey hslot
  rw [Reading.through_append, hfirst.top, hcomma] at htop
  refine ⟨?_, ?_, ?_⟩
  · rw [hgrown, h.hasKey_insert hgaps]
    exact hkey
  · rw [hgrown, h.slot?_insert hgaps hfirst.top, hslot, Option.map_some, hmoved]
  · rw [Reading.through_append, hfirst.top, hcomma, Reading.through_append,
      h.simple.1.through_argument hgaps, hcomma, htop]

/-- A rule that adds before what the other one added does so where it did. -/
theorem GoesIn.before : GoesIn first x (m ++ ',' :: (second.argument gaps ++ ',' :: y)) := by
  have hold : (x ++ ',' :: m) ++ ',' :: y = x ++ ',' :: (m ++ ',' :: y) := by simp
  have hgrown : x ++ ',' :: (m ++ ',' :: (second.argument gaps ++ ',' :: y)) =
      (x ++ ',' :: m) ++ ',' :: (second.argument gaps ++ ',' :: y) := by simp
  have hstays : movedBy ((x ++ ',' :: m).size + 2) ((second.argument gaps).size + 1) (x.size + 1) =
      x.size + 1 := by
    refine movedBy_of_lt ?_
    rw [Text.size_append]
    omega
  refine ⟨?_, ?_, hfirst.top⟩
  · rw [hgrown, h.symm.hasKey_insert hgaps, hold]
    exact hfirst.key
  · rw [hgrown, h.symm.slot?_insert hgaps hsecond.top, hold, hfirst.slot, Option.map_some, hstays]

end

theorem GoesIn.exists_visits (h : first.Independent second) {x m y : Text}
    (hfirst : GoesIn first x (m ++ ',' :: y)) (hsecond : GoesIn second (x ++ ',' :: m) y)
    (s : Setting b call) (indent : Indent) (q r : Progress) :
    ∃ args o o', Visit s indent second q
        (x ++ ',' :: (first.argument (indent.behind (s.upTo x)) ++ ',' :: (m ++ ',' :: y)))
        (q.put call second o (s.text args)) args ∧
      Visit s indent first r
        ((x ++ ',' :: m) ++ ',' ::
          (second.argument (indent.behind (s.upTo (x ++ ',' :: m))) ++ ',' :: y))
        (r.put call first o' (s.text args)) args := by
  have hgaps : ∀ u, ∀ c ∈ indent.behind u, isGap c = true := fun u => Indent.isGap_of_mem_behind
  -- what the first rule adds does not change the indentation of the second
  have hindent : indent.behind (s.upTo (x ++ ',' ::
      (first.argument (indent.behind (s.upTo x)) ++ ',' :: m))) =
      indent.behind (s.upTo (x ++ ',' :: m)) := by
    have hupTo : ∀ z, s.upTo (x ++ ',' :: z) = s.upTo x ++ ',' :: z := by simp [Setting.upTo]
    rw [hupTo, hupTo]
    exact Indent.behind_insert h.simple.1.isName.1
      (fun hmem => (h.simple.1.literal _ hmem).2 rfl) indent (s.upTo x) m
  have hsecond' : Visit s indent second q _ _ _ :=
    .added (GoesIn.behind h hfirst hsecond (hgaps (s.upTo x)))
  have hfirst' : Visit s indent first r _ _ _ :=
    .added (GoesIn.before h hfirst hsecond (hgaps (s.upTo (x ++ ',' :: m))))
  rw [hindent] at hsecond'
  simp only [List.append_assoc, List.cons_append] at hsecond' hfirst' ⊢
  exact ⟨_, _, _, hsecond', hfirst'⟩

theorem agrees_of_puts {o o₁ o₂ o₃ : Nat} {t t₁ t₂ t₃ : Text} :
    ((p.put call first o t).put call second o₁ t₁).Agrees
      ((p.put call second o₂ t₂).put call first o₃ t₃) := by
  refine ⟨?_, List.Perm.refl _⟩
  simp only [Progress.put_insertions, List.map_append, List.append_assoc, List.map_cons, List.map_nil]
  exact List.perm_append_comm.append_left _

/-- The visits of two independent rules commute, unless both add at the same place. -/
theorem Visit.comm (h : first.Independent second)
    (hplaces : ∀ place, args.slot? first.anchor = some place →
      args.slot? second.anchor ≠ some place)
    (hfirst : Visit s indent first p args q args₁) (hsecond : Visit s indent second p args r args₂) :
    ∃ q' r' args', Visit s indent second q args₁ q' args' ∧ Visit s indent first r args₂ r' args' ∧
      q'.Agrees r' := by
  have hgaps : ∀ u, ∀ c ∈ indent.behind u, isGap c = true := fun u => Indent.isGap_of_mem_behind
  cases hfirst with
  | idle hidle =>
    cases hsecond with
    | idle hidle' =>
      refine ⟨_, _, args, .idle hidle', .idle hidle, List.Perm.refl _, ?_⟩
      simp only [List.append_assoc]
      exact List.perm_append_comm.append_left _
    | added hgoes =>
      exact ⟨_, _, _, .added hgoes, .idle (hidle.insert h.symm (hgaps _) hgoes.top),
        List.Perm.refl _, List.Perm.refl _⟩
  | @added x y hgoes =>
    generalize hargs : x ++ ',' :: y = args at hsecond
    cases hsecond with
    | idle hidle =>
      subst hargs
      exact ⟨_, _, _, .idle (hidle.insert h (hgaps _) hgoes.top), .added hgoes,
        List.Perm.refl _, List.Perm.refl _⟩
    | @added x' y' hgoes' =>
      rcases Text.append_cons_cases hargs with
        ⟨rfl, -, rfl⟩ | ⟨mid, rfl, rfl⟩ | ⟨mid, rfl, rfl⟩
      · exact absurd hgoes'.slot (hplaces _ hgoes.slot)
      · obtain ⟨args', o, o', hq, hr⟩ := hgoes.exists_visits h hgoes' s indent _ _
        exact ⟨_, _, args', hq, hr, agrees_of_puts⟩
      · obtain ⟨args', o, o', hr, hq⟩ := hgoes'.exists_visits h.symm hgoes s indent _ _
        exact ⟨_, _, args', hq, hr, agrees_of_puts⟩

/-! ## The two orders -/

section

variable {target : Target} (hname : constructRefusal? target.construct = none)
  (hround : target.brackets = .round)

include hname hround

theorem balanced_of_independent (h : first.Independent second) (indent : Indent) :
    Balanced ⟨target, [first, second], indent⟩ := by
  have hsimple : ∀ rule ∈ [first, second], rule.Simple := by
    simpa only [List.mem_cons, List.not_mem_nil, or_false, forall_eq_or_imp, forall_eq] using h.simple
  have haccepted := refusal?_eq_none hname (fun rule hrule => (hsimple rule hrule).accepted) indent
  have hplain : Plain ⟨target, [first, second], indent⟩ :=
    ⟨haccepted, hround, fun rule hrule c hc => ((hsimple rule hrule).literal c hc).1⟩
  exact ⟨haccepted, hplain.inert.brackets, fun rule hrule => (hplain.inert.literals rule hrule).balanced⟩

/-- **Independent rules commute**: unless both have the same slot, the call is filled to the same text
in either order, with the same keys added and the same rules left out. -/
theorem fillCall_comm (h : first.Independent second) {t : Text} {call : Call}
    (hcall : .ok call ∈ target.calls t)
    (hslots : ∀ offset, slot t call first = .ok offset → slot t call second ≠ .ok offset)
    (indent : Indent) {p : Progress} (htext : p.text = t) {budget : Nat} (hbudget : 2 < budget) :
    ∃ q r, fillCall ⟨target, [first, second], indent⟩ call budget [] p = .ok q ∧
      fillCall ⟨target, [second, first], indent⟩ call budget [] p = .ok r ∧
      q.text = r.text ∧ q.Agrees r := by
  have hq := balanced_of_independent hname hround h indent
  have hr := balanced_of_independent hname hround h.symm indent
  obtain ⟨args, hargs⟩ := Target.exists_hasArgs_of_mem_found (Target.mem_found_of_mem_calls hcall)
  have hplaces : ∀ place, args.slot? first.anchor = some place →
      args.slot? second.anchor ≠ some place := by
    intro place hfirst hsecond
    refine hslots (call.argsStart + place) ?_ ?_
    · rw [slot_of_hasArgs hargs, hfirst]
    · rw [slot_of_hasArgs hargs, hsecond]
  obtain ⟨s, rfl⟩ := (hargs.opens rfl).exists_setting
  obtain ⟨q₁, args₁, hfirst⟩ := exists_visit s indent h.simple.1.isName.2 p args
  obtain ⟨r₁, args₂, hsecond⟩ := exists_visit s indent h.simple.2.isName.2 p args
  obtain ⟨q, r, args', hq₂, hr₂, hagrees⟩ := hfirst.comm h hplaces hsecond
  have hkeys : ∀ {a b : Rule}, a.key ≠ b.key → [a, b].Nodup := by
    intro a b hne
    simpa using fun heq => hne (congrArg Rule.key heq)
  have hdepth := (hargs.opens rfl).depth?_eq
  obtain ⟨hfill, hqtext⟩ := hq.fillCall_of_round (hkeys h.keys) htext hdepth
    (.cons hfirst (.cons hq₂ .nil)) hbudget
  obtain ⟨hfill', hrtext⟩ := hr.fillCall_of_round (hkeys h.keys.symm) htext hdepth
    (.cons hsecond (.cons hr₂ .nil)) hbudget
  exact ⟨q, r, hfill, hfill', hqtext.trans hrtext.symm, hagrees⟩

end

theorem fillCall_comm_sample :
    let target : Target := ⟨['P'], .round⟩
    let first : Rule := ⟨['b'], ['a'], ['1']⟩
    let second : Rule := ⟨['d'], ['z'], ['2']⟩
    let t : Text := "P(\n  a: [0, 1], z: 'a: 0,',\n)".toList
    let call : Call := ⟨0, 2, 28⟩
    constructRefusal? target.construct = none ∧ target.brackets = .round ∧
    first.Independent second ∧ .ok call ∈ target.calls t ∧
    (∀ offset, slot t call first = .ok offset → slot t call second ≠ .ok offset) ∧ 2 < 3 ∧
    ∃ q r, fillCall ⟨target, [first, second], .matchAnchor⟩ call 3 [] ⟨t, [], []⟩ = .ok q ∧
      fillCall ⟨target, [second, first], .matchAnchor⟩ call 3 [] ⟨t, [], []⟩ = .ok r ∧
      q.text = r.text ∧ q.Agrees r := by
  intro target first second t call
  have hname : constructRefusal? target.construct = none := by decide +kernel
  have hfirst : first.Simple := by
    refine ⟨by decide +kernel, List.all_eq_true.1 (by decide), List.all_eq_true.1 (by decide), ?_⟩
    intro c hc
    obtain rfl := List.mem_singleton.1 hc
    decide
  have hsecond : second.Simple := by
    refine ⟨by decide +kernel, List.all_eq_true.1 (by decide), List.all_eq_true.1 (by decide), ?_⟩
    intro c hc
    obtain rfl := List.mem_singleton.1 hc
    decide
  have hindependent : first.Independent second := ⟨⟨hfirst, hsecond⟩, by decide, by decide⟩
  have hcall : .ok call ∈ target.calls t := by decide +kernel
  have hslots : ∀ offset, slot t call first = .ok offset → slot t call second ≠ .ok offset := by
    intro offset hfirst hsecond
    have hplaces : slot t call first = .ok 15 ∧ slot t call second = .ok 27 := by decide +kernel
    rw [hplaces.1] at hfirst
    rw [hplaces.2, ← hfirst] at hsecond
    cases hsecond
  exact ⟨hname, rfl, hindependent, hcall, hslots, by decide,
    fillCall_comm hname rfl hindependent hcall hslots .matchAnchor rfl (by decide)⟩

end Filler

end ArgFill
