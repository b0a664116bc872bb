import ArgFill.Filler
import ArgFill.Proofs.Insertion
import ArgFill.Proofs.Slot

/-!
# What one turn does

A turn at a call sees one text, the argument list that opens there (`Call.Opens`). `turn_eq` says
what a turn does in terms of that list, and `turn_outcome` lists what it can come to:

* the call is settled, because every rule has its key in the list or was left out before;
* the next rule is left out, because the list has no slot for it;
* the argument of the next rule is put in right behind a comma at the top of the list, and the list
  that opens at the call then has the key of the rule.
-/

namespace ArgFill

/-! ## The argument list at a call -/

/-- The argument list that opens at a call, whatever end the call was measured with. -/
def Call.Opens (b : Brackets) (t : Text) (call : Call) (args : Text) : Prop :=
  ∃ front back, t = front ++ b.opening :: (args ++ b.closing :: back) ∧
    call.argsStart = Text.size front + b.opening.utf8Size ∧ b.depth? 0 args = some 0

namespace Call

variable {b : Brackets} {t args args' : Text} {call now : Call}

theorem HasArgs.opens (h : now.HasArgs b t args) (hstart : call.argsStart = now.argsStart) :
    call.Opens b t args := by
  obtain ⟨front, back, ht, hfront, -, hdepth⟩ := h
  exact ⟨front, back, ht, hstart.trans hfront, hdepth⟩

theorem Opens.hasArgs (h : call.Opens b t args) :
    Call.HasArgs b t { call with argsEnd := call.argsStart + args.size } args := by
  obtain ⟨front, back, ht, hfront, hdepth⟩ := h
  exact ⟨front, back, ht, hfront, rfl, hdepth⟩

theorem Opens.depth?_eq (h : call.Opens b t args) : b.depth? 0 args = some 0 := by
  obtain ⟨_, _, -, -, hdepth⟩ := h
  exact hdepth

theorem Opens.unique (hne : b.opening ≠ b.closing) (h : call.Opens b t args)
    (h' : call.Opens b t args') : args = args' := by
  obtain ⟨front, back, rfl, hfront, hdepth⟩ := h
  obtain ⟨front', back', ht, hfront', hdepth'⟩ := h'
  obtain ⟨-, hrest⟩ := Text.append_inj_of_size_eq ht (by omega)
  have hargs := (List.cons.inj hrest).2
  have hend := (Brackets.closingFrom?_eq_some_iff hne (o := 0)).2 ⟨args, back, rfl, hdepth, rfl⟩
  rw [hargs, (Brackets.closingFrom?_eq_some_iff hne).2 ⟨args', back', rfl, hdepth', rfl⟩] at hend
  have hsize : args'.size = args.size := by simpa using hend
  exact (Text.append_inj_of_size_eq hargs hsize.symm).1

theorem HasArgs.unique (hne : b.opening ≠ b.closing) (h : now.HasArgs b t args)
    (h' : now.HasArgs b t args') : args = args' :=
  (h.opens rfl).unique hne (h'.opens rfl)

end Call

/-- The slot in the list of a call stands right behind a comma of the text, at the top of the list. -/
theorem Call.Opens.exists_slot {b : Brackets} {t args anchor : Text} {call : Call} {place : Nat}
    (h : call.Opens b t args) (hanchor : anchor.isName = true)
    (hslot : args.slot? anchor = some place) :
    ∃ front x y back, args = x ++ ',' :: y ∧ place = Text.size x + 1 ∧
      t = (front ++ b.opening :: x) ++ ',' :: (y ++ b.closing :: back) ∧
      call.argsStart = Text.size front + b.opening.utf8Size ∧
      call.argsStart + place = Text.size (front ++ b.opening :: x) + 1 ∧
      Reading.top.through x = .top := by
  obtain ⟨x, y, rfl, rfl, htop⟩ := Text.slot?_eq_some hanchor hslot
  obtain ⟨front, back, rfl, hstart, -⟩ := h
  refine ⟨front, x, y, back, rfl, rfl, by simp, hstart, ?_, htop⟩
  rw [Text.size_append, Text.size_cons]
  omega

/-! ## Lines and their indentation -/

namespace Text

theorem lastLine_append_lineFeed (x y : Text) : lastLine (x ++ '\n' :: y) = lastLine y := by
  have hreverse : (x ++ '\n' :: y).reverse = y.reverse ++ '\n' :: x.reverse := by simp
  rw [lastLine, lastLine, hreverse, takeWhile_append_cons (by decide)]

theorem lastLine_append_of_not_mem {y : Text} (hy : '\n' ∉ y) (x : Text) :
    lastLine (x ++ y) = lastLine x ++ y := by
  have hall : ∀ c ∈ y.reverse, decide (c ≠ '\n') = true := by
    intro c hc
    rw [decide_eq_true_eq]
    rintro rfl
    exact hy (List.mem_reverse.1 hc)
  rw [lastLine, lastLine, List.reverse_append, List.takeWhile_append_of_pos hall,
    List.reverse_append, List.reverse_reverse]

theorem lastLine_of_not_mem {t : Text} (h : '\n' ∉ t) : t.lastLine = t :=
  lastLine_append_of_not_mem h []

end Text

/-- The indentation of what is put in behind `front`. -/
def Indent.behind (indent : Indent) (front : Text) : Text :=
  match indent with
  | .none => []
  | .matchAnchor => front.lastLine.takeWhile isGap

theorem Indent.isGap_of_mem_behind {indent : Indent} {front : Text} :
    ∀ c ∈ indent.behind front, isGap c = true := by
  cases indent with
  | none => exact fun c hc => nomatch hc
  | matchAnchor => exact fun c hc => List.all_eq_true.1 List.all_takeWhile c hc

/-! ## What a rule adds -/

theorem through_argument_eq {rule : Rule} {indent : Text} (hkey : rule.key.isName = true)
    (hindent : ∀ c ∈ indent, isGap c = true) :
    Reading.top.through (rule.argument indent) = Reading.top.through rule.literal := by
  have hpasses : ∀ c ∈ '\n' :: (indent ++ (rule.key ++ [':', ' '])), Reading.passes c = true := by
    intro c hc
    simp only [List.mem_cons, List.mem_append, List.not_mem_nil, or_false] at hc
    rcases hc with rfl | hc | hc | rfl | rfl
    · decide
    · exact Reading.passes_of_isGap (hindent c hc)
    · exact Reading.passes_of_isNameChar (Text.isNameChar_of_mem hkey hc)
    · decide
    · decide
  have hsplit : rule.argument indent =
      '\n' :: (indent ++ (rule.key ++ [':', ' '])) ++ rule.literal := by simp [Rule.argument]
  rw [hsplit, Reading.through_append, Reading.top, Reading.through_of_forall_passes hpasses 0]

theorem insert?_behind_comma (rule : Rule) (indent u v : Text) :
    (u ++ ',' :: v).insert? (u.size + 1) (rule.insertion indent) =
      some (u ++ ',' :: (rule.argument indent ++ ',' :: v)) := by
  refine Text.insert?_eq_some_iff.2 ⟨u ++ [','], v, by simp, ?_, by simp [Rule.insertion_eq]⟩
  rw [Text.size_append]
  rfl

namespace Filler

variable {filler : Filler} {call : Call} {out : List Rule} {p : Filler.Progress} {t args : Text}

theorem isQualifiedName_of_refusal? (h : filler.refusal? = none) :
    filler.target.construct.isQualifiedName = true :=
  isQualifiedName_of_constructRefusal? (Option.or_eq_none_iff.1 h).1

theorem isName_of_refusal? (h : filler.refusal? = none) {rule : Rule} (hrule : rule ∈ filler.rules) :
    rule.key.isName = true ∧ rule.anchor.isName = true := by
  have hrules := List.findSome?_eq_none_iff.1 (Option.or_eq_none_iff.1 h).2
  obtain ⟨hkey, hanchor, -⟩ := Rule.refusal?_eq_none_iff.1 (hrules rule hrule)
  exact ⟨hkey, hanchor⟩

/-- The rule that a turn turns to: the first one whose key is missing and that is not left out. -/
def next? (filler : Filler) (args : Text) (out : List Rule) : Option Rule :=
  filler.rules.find? fun rule => !args.hasKey rule.key && !out.contains rule

/-- The number of rules that turns may still turn to. -/
def openRules (filler : Filler) (args : Text) (out : List Rule) : Nat :=
  filler.rules.countP fun rule => !args.hasKey rule.key && !out.contains rule

def Progress.leave (p : Progress) (call : Call) (rule : Rule) : Progress :=
  { p with skips := p.skips ++ [⟨call.start, rule.key, rule.anchor⟩] }

def Progress.put (p : Progress) (call : Call) (rule : Rule) (offset : Nat) (t : Text) : Progress :=
  ⟨t, p.insertions ++ [⟨call.start, offset, rule.key⟩], p.skips⟩

namespace Progress

variable (p : Progress) (call : Call) (rule : Rule) (offset : Nat) (t : Text)

@[simp] theorem leave_text : (p.leave call rule).text = p.text := rfl

@[simp] theorem leave_insertions : (p.leave call rule).insertions = p.insertions := rfl

@[simp] theorem leave_skips :
    (p.leave call rule).skips = p.skips ++ [⟨call.start, rule.key, rule.anchor⟩] := rfl

@[simp] theorem put_text : (p.put call rule offset t).text = t := rfl

@[simp] theorem put_insertions : (p.put call rule offset t).insertions =
    p.insertions ++ [⟨call.start, offset, rule.key⟩] := rfl

@[simp] theorem put_skips : (p.put call rule offset t).skips = p.skips := rfl

end Progress

theorem next?_eq_none_iff : filler.next? args out = none ↔
    ∀ rule ∈ filler.rules, args.hasKey rule.key = true ∨ rule ∈ out := by
  rw [next?, List.find?_eq_none]
  refine forall₂_congr fun rule _ => ?_
  simp only [Bool.and_eq_true, Bool.not_eq_true', List.contains_eq_mem, decide_eq_false_iff_not]
  cases args.hasKey rule.key <;> simp

theorem find?_missing (filler : Filler) (args : Text) (out : List Rule) :
    ((filler.rules.filter fun rule => !args.hasKey rule.key).find? fun rule => !out.contains rule) =
      filler.next? args out := by
  rw [next?, List.find?_filter]
  congr 1
  funext rule
  rw [Bool.decide_and, Bool.decide_eq_true, Bool.decide_eq_true]

theorem of_next?_eq_some {rule : Rule} (h : filler.next? args out = some rule) :
    rule ∈ filler.rules ∧ args.hasKey rule.key = false ∧ rule ∉ out := by
  refine ⟨List.mem_of_find?_eq_some h, ?_⟩
  simpa using List.find?_some h

/-- Dealing with the next rule, and undoing nothing, leaves fewer rules open. -/
theorem openRules_lt {args' : Text} {out' : List Rule} {rule : Rule}
    (hnext : filler.next? args out = some rule)
    (hkeys : ∀ r ∈ filler.rules, args.hasKey r.key = true → args'.hasKey r.key = true)
    (hout : ∀ r ∈ out, r ∈ out') (hdone : args'.hasKey rule.key = true ∨ rule ∈ out') :
    filler.openRules args' out' < filler.openRules args out := by
  obtain ⟨hrule, hkey, hnot⟩ := of_next?_eq_some hnext
  rw [openRules, openRules, List.countP_eq_length_filter, List.countP_eq_length_filter]
  have hsub : (filler.rules.filter fun r => !args'.hasKey r.key && !out'.contains r) =
      (filler.rules.filter fun r => !args.hasKey r.key && !out.contains r).filter
        fun r => !args'.hasKey r.key && !out'.contains r := by
    rw [List.filter_filter]
    refine List.filter_congr fun r hr => ?_
    have h1 := hkeys r hr
    have h2 := hout r
    simp only [List.contains_eq_mem]
    grind
  rw [hsub, List.length_filter_lt_length_iff_exists]
  refine ⟨rule, List.mem_filter.2 ⟨hrule, by simp [hkey, hnot]⟩, ?_⟩
  rcases hdone with hdone | hdone <;> simp [hdone]

/-! ## Reading the list -/

section

variable (h : argsOf t call = .ok args)

include h

theorem isPresent_of_argsOf (key : Text) : isPresent t call key = .ok (args.hasKey key) := by
  rw [isPresent, h]
  rfl

theorem missing_of_argsOf (rules : List Rule) :
    missing t call rules = .ok (rules.filter fun rule => !args.hasKey rule.key) := by
  cases rules with
  | nil => rfl
  | cons rule rules =>
    rw [missing, h]
    · rfl
    · exact List.cons_ne_nil rule rules

theorem slot_of_argsOf (rule : Rule) :
    slot t call rule =
      match args.slot? rule.anchor with
      | some place => .ok (call.argsStart + place)
      | none => .error (.anchorMissing rule.anchor rule.key) := by
  rw [slot, h]
  rfl

end

theorem exists_place_of_slot {rule : Rule} {offset : Nat} (h : slot t call rule = .ok offset) :
    ∃ args place, call.args? t = some args ∧ args.slot? rule.anchor = some place ∧
      offset = call.argsStart + place := by
  cases hargs : call.args? t with
  | none =>
    rw [slot, argsOf, hargs] at h
    cases h
  | some args =>
    rw [slot_of_argsOf (by rw [argsOf, hargs]; rfl)] at h
    cases hplace : args.slot? rule.anchor with
    | none =>
      rw [hplace] at h
      cases h
    | some place =>
      rw [hplace] at h
      exact ⟨args, place, rfl, hplace, (Except.ok.inj h).symm⟩

section

variable {b : Brackets} (h : call.HasArgs b t args)

include h

theorem argsOf_of_hasArgs : argsOf t call = .ok args := by
  rw [argsOf, h.args?]
  rfl

theorem isPresent_of_hasArgs (key : Text) : isPresent t call key = .ok (args.hasKey key) :=
  isPresent_of_argsOf (argsOf_of_hasArgs h) key

theorem missing_of_hasArgs (rules : List Rule) :
    missing t call rules = .ok (rules.filter fun rule => !args.hasKey rule.key) :=
  missing_of_argsOf (argsOf_of_hasArgs h) rules

theorem slot_of_hasArgs (rule : Rule) :
    slot t call rule =
      match args.slot? rule.anchor with
      | some place => .ok (call.argsStart + place)
      | none => .error (.anchorMissing rule.anchor rule.key) :=
  slot_of_argsOf (argsOf_of_hasArgs h) rule

end

section

variable (hone : filler.target.brackets.opening.utf8Size = 1)
  (hne : filler.target.brackets.opening ≠ filler.target.brackets.closing)

include hone hne

theorem remeasure_of_opens (h : call.Opens filler.target.brackets t args) :
    filler.target.remeasure t call = .ok { call with argsEnd := call.argsStart + args.size } :=
  Target.remeasure_of_hasArgs hone hne h.hasArgs rfl

theorem opens_or_unclosed {front : Text}
    (hstart : call.argsStart = front.size + filler.target.brackets.opening.utf8Size) (rest : Text) :
    (∃ args, call.Opens filler.target.brackets
        (front ++ filler.target.brackets.opening :: rest) args) ∨
      filler.target.remeasure (front ++ filler.target.brackets.opening :: rest) call =
        .error (.unclosed filler.target.construct call.openOffset) := by
  cases hend : filler.target.brackets.closing? call.argsStart rest with
  | none =>
    rw [Target.remeasure_eq hone hstart, hend]
    exact Or.inr rfl
  | some e =>
    obtain ⟨args, back, rfl, hdepth, -⟩ := (Brackets.closingFrom?_eq_some_iff hne).1 hend
    exact Or.inl ⟨args, front, back, rfl, hstart, hdepth⟩

theorem turn_eq (h : call.Opens filler.target.brackets p.text args) :
    filler.turn call out p =
      match filler.next? args out with
      | none => .ok .settled
      | some rule =>
        match args.slot? rule.anchor with
        | none => .ok (.leftOut rule (p.leave call rule))
        | some place => .added <$> filler.add call rule (call.argsStart + place) p := by
  rw [turn, remeasure_of_opens hone hne h]
  simp only [bind, Except.bind, missing_of_hasArgs h.hasArgs, find?_missing]
  cases filler.next? args out with
  | none => rfl
  | some rule =>
    simp only [slot_of_hasArgs h.hasArgs]
    cases args.slot? rule.anchor with
    | none => rfl
    | some place => rfl

theorem turn_of_settled (h : call.Opens filler.target.brackets p.text args)
    (hnext : filler.next? args out = none) : filler.turn call out p = .ok .settled := by
  rw [turn_eq hone hne h, hnext]

theorem turn_of_leftOut (h : call.Opens filler.target.brackets p.text args) {rule : Rule}
    (hnext : filler.next? args out = some rule) (hslot : args.slot? rule.anchor = none) :
    filler.turn call out p = .ok (.leftOut rule (p.leave call rule)) := by
  rw [turn_eq hone hne h, hnext]
  simp only [hslot]

theorem turn_of_slot (h : call.Opens filler.target.brackets p.text args) {rule : Rule} {place : Nat}
    (hnext : filler.next? args out = some rule) (hslot : args.slot? rule.anchor = some place) :
    filler.turn call out p = .added <$> filler.add call rule (call.argsStart + place) p := by
  rw [turn_eq hone hne h, hnext]
  simp only [hslot]

end

/-! ## Putting an argument in -/

theorem indentation_behind_comma (filler : Filler) (u v : Text) :
    filler.indentation (u ++ ',' :: v) (u.size + 1) = .ok (filler.indent.behind u) := by
  unfold indentation Indent.behind
  cases filler.indent with
  | none => rfl
  | matchAnchor =>
    have hsize : Text.size (u ++ [',']) = u.size + 1 := by
      rw [Text.size_append]
      rfl
    have hline : (Text.lastLine (u ++ [',']) ++ v).takeWhile isGap =
        u.lastLine.takeWhile isGap := by
      rw [Text.lastLine_append_of_not_mem (by decide), List.append_assoc]
      exact Text.takeWhile_append_cons (by decide) _ _
    refine Fault.ofPlace_eq_ok_iff.2 (Text.indentAt?_eq_some_iff.2 ⟨u ++ [','], v, by simp, hsize, ?_⟩)
    exact hline.symm

theorem exists_indentation (filler : Filler) (u v : Text) :
    ∃ indent, filler.indentation (u ++ ',' :: v) (Text.size u + 1) = .ok indent ∧
      ∀ c ∈ indent, isGap c = true :=
  ⟨_, indentation_behind_comma filler u v, Indent.isGap_of_mem_behind⟩

/-- Putting in an argument behind a comma comes down to measuring the text with it. -/
theorem add_eq {u v indent : Text} (htext : p.text = u ++ ',' :: v)
    (hindent : filler.indentation p.text (Text.size u + 1) = .ok indent) (rule : Rule) :
    filler.add call rule (Text.size u + 1) p =
      (filler.target.remeasure (u ++ ',' :: (rule.argument indent ++ ',' :: v)) call).bind fun grown =>
        (isPresent (u ++ ',' :: (rule.argument indent ++ ',' :: v)) grown rule.key).bind fun found =>
          if found then
            .ok (p.put call rule (Text.size u + 1) (u ++ ',' :: (rule.argument indent ++ ',' :: v)))
          else .error (.refused (.keyLost rule.key)) := by
  have hinsert := insert?_behind_comma rule indent u v
  rw [← htext] at hinsert
  rw [add, hindent]
  simp only [bind, Except.bind, hinsert, Fault.ofPlace]
  rfl

/-- Adding succeeds where the list that opens at the call then has the key. -/
theorem add_of_opens (hone : filler.target.brackets.opening.utf8Size = 1)
    (hne : filler.target.brackets.opening ≠ filler.target.brackets.closing) {u v indent : Text}
    (htext : p.text = u ++ ',' :: v)
    (hindent : filler.indentation p.text (Text.size u + 1) = .ok indent) {rule : Rule}
    (hopens : call.Opens filler.target.brackets
      (u ++ ',' :: (rule.argument indent ++ ',' :: v)) args) :
    filler.add call rule (Text.size u + 1) p =
      if args.hasKey rule.key then
        .ok (p.put call rule (Text.size u + 1) (u ++ ',' :: (rule.argument indent ++ ',' :: v)))
      else .error (.refused (.keyLost rule.key)) := by
  rw [add_eq htext hindent, remeasure_of_opens hone hne hopens]
  simp only [Except.bind, isPresent_of_hasArgs hopens.hasArgs]

/-! ## The outcomes of a turn -/

/-- What a turn can come to at a call whose argument list is `args`. -/
inductive Outcome (filler : Filler) (call : Call) (out : List Rule) (p : Progress) (args : Text) :
    Except Fault Turn → Prop
  | settled (hnext : filler.next? args out = none) : Outcome filler call out p args (.ok .settled)
  | leftOut {rule : Rule} (hnext : filler.next? args out = some rule)
      (hslot : args.slot? rule.anchor = none) :
      Outcome filler call out p args (.ok (.leftOut rule (p.leave call rule)))
  | added {rule : Rule} {front x y back indent grown : Text}
      (hnext : filler.next? args out = some rule) (hargs : args = x ++ ',' :: y)
      (hslot : args.slot? rule.anchor = some (x.size + 1)) (htop : Reading.top.through x = .top)
      (htext : p.text = (front ++ filler.target.brackets.opening :: x) ++ ',' ::
        (y ++ filler.target.brackets.closing :: back))
      (hstart : call.argsStart = front.size + filler.target.brackets.opening.utf8Size)
      (hindent : ∀ c ∈ indent, isGap c = true)
      (hopens : call.Opens filler.target.brackets ((front ++ filler.target.brackets.opening :: x) ++
        ',' :: (rule.argument indent ++ ',' :: (y ++ filler.target.brackets.closing :: back))) grown)
      (hkey : grown.hasKey rule.key = true) :
      Outcome filler call out p args (.ok (.added (p.put call rule
        (Text.size (front ++ filler.target.brackets.opening :: x) + 1)
        ((front ++ filler.target.brackets.opening :: x) ++ ',' ::
          (rule.argument indent ++ ',' :: (y ++ filler.target.brackets.closing :: back))))))
  | unclosed : Outcome filler call out p args
      (.error (.unclosed filler.target.construct call.openOffset))
  | keyLost (rule : Rule) : Outcome filler call out p args (.error (.refused (.keyLost rule.key)))

/-- What a turn does to the argument list of its call. -/
theorem turn_outcome (haccepted : filler.refusal? = none) (hb : filler.target.brackets.StandOut)
    (h : call.Opens filler.target.brackets p.text args) :
    Outcome filler call out p args (filler.turn call out p) := by
  have hone := hb.oneByte
  have hne := hb.differ
  cases hnext : filler.next? args out with
  | none =>
    rw [turn_of_settled hone hne h hnext]
    exact .settled hnext
  | some rule =>
    cases hslot : args.slot? rule.anchor with
    | none =>
      rw [turn_of_leftOut hone hne h hnext hslot]
      exact .leftOut hnext hslot
    | some place =>
      rw [turn_of_slot hone hne h hnext hslot]
      have hanchor := (isName_of_refusal? haccepted (of_next?_eq_some hnext).1).2
      obtain ⟨front, x, y, back, rfl, rfl, hsplit, hstart, hoffset, htop⟩ :=
        h.exists_slot hanchor hslot
      obtain ⟨indent, hindent, hgaps⟩ := exists_indentation filler
        (front ++ filler.target.brackets.opening :: x) (y ++ filler.target.brackets.closing :: back)
      rw [← hsplit] at hindent
      rw [hoffset]
      rcases opens_or_unclosed hone hne hstart (x ++ ',' :: (rule.argument indent ++ ',' ::
        (y ++ filler.target.brackets.closing :: back))) with ⟨grown, hopens⟩ | hunclosed
      · rw [← List.cons_append, ← List.append_assoc] at hopens
        rw [add_of_opens hone hne hsplit hindent hopens]
        cases hkey : grown.hasKey rule.key with
        | false => exact .keyLost rule
        | true => exact .added hnext rfl hslot htop hsplit hstart hgaps hopens hkey
      · rw [← List.cons_append, ← List.append_assoc] at hunclosed
        rw [add_eq hsplit hindent, hunclosed]
        exact .unclosed

theorem Outcome.of_turn (haccepted : filler.refusal? = none)
    (hb : filler.target.brackets.StandOut) (h : call.Opens filler.target.brackets p.text args)
    {turn : Except Fault Turn} (hturn : filler.turn call out p = turn) :
    Outcome filler call out p args turn := by
  rw [← hturn]
  exact turn_outcome haccepted hb h

end Filler

end ArgFill
