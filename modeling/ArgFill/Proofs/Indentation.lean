import ArgFill.Proofs.Filled
import ArgFill.Proofs.Layout
import Mathlib.Data.List.Find

/-!
# Indentation changes only white space

The same filler runs over a text twice, without indentation and with it. The two texts drift apart
with each argument, but at every turn they are the two readings of one layout (`Filler.Parallel`), and
the turn finds the same end of the list in them, the same keys and the same slot. So it does the same
to both (`turn_parallel`), and so do whole runs (`apply_indentation`): they come to the same fault, or to
results that differ in the spaces and tabs behind the line feeds that were put in (`Laid`).
-/

namespace ArgFill

/-! ## What is put in -/

def Rule.laid (rule : Rule) {indent : Text} (gaps : ∀ c ∈ indent, isGap c = true) : Layout :=
  .line indent gaps :: Layout.chars (rule.key ++ ':' :: ' ' :: (rule.literal ++ [',']))

theorem Rule.plain_laid (rule : Rule) {indent : Text} (gaps : ∀ c ∈ indent, isGap c = true) :
    (rule.laid gaps).plain = rule.argument [] ++ [','] := by
  rw [laid, Layout.plain_line]
  simp [argument]

theorem Rule.indented_laid (rule : Rule) {indent : Text} (gaps : ∀ c ∈ indent, isGap c = true) :
    (rule.laid gaps).indented = rule.argument indent ++ [','] := by
  rw [laid, Layout.indented_line]
  simp [argument]

section

variable (rule : Rule) {indent : Text} (gaps : ∀ c ∈ indent, isGap c = true) (front back : Layout)

theorem Layout.plain_put : plain (front ++ .char ',' :: (rule.laid gaps ++ back)) =
    front.plain ++ ',' :: (rule.argument [] ++ ',' :: back.plain) := by
  rw [plain_append, plain_char, plain_append, rule.plain_laid, List.append_assoc, List.cons_append,
    List.nil_append]

theorem Layout.indented_put : indented (front ++ .char ',' :: (rule.laid gaps ++ back)) =
    front.indented ++ ',' :: (rule.argument indent ++ ',' :: back.indented) := by
  rw [indented_append, indented_char, indented_append, rule.indented_laid, List.append_assoc,
    List.cons_append, List.nil_append]

end

theorem Layout.size_plain_comma (l : Layout) :
    Text.size (plain (l ++ [.char ','])) = Text.size l.plain + 1 := by
  rw [plain_append, Text.size_append]
  rfl

theorem Layout.size_indented_comma (l : Layout) :
    Text.size (indented (l ++ [.char ','])) = Text.size l.indented + 1 := by
  rw [indented_append, Text.size_append]
  rfl

theorem size_behind_comma {c : Char} {front : Text} {start : Nat}
    (hstart : start = front.size + c.utf8Size) (x : Text) :
    start + (0 + (x.size + 1)) = Text.size (front ++ [c] ++ x) + 1 := by
  rw [hstart, Text.size_append, Text.size_append, Text.size_cons, Text.size_nil]
  omega

/-- The insertions of two reports, carried out one by one at the same places of the two texts. They
put in the same, up to the indentation behind the line feed with which each of them begins. -/
inductive Laid (rules : List Rule) (t : Text) : List Insertion → List Insertion → Layout → Prop
  | none : Laid rules t [] [] (.chars t)
  | snoc {insertions indented : List Insertion} {front back : Layout} {rule : Rule} {indent : Text}
      (h : Laid rules t insertions indented (front ++ back)) (callStart : Nat) (hrule : rule ∈ rules)
      (gaps : ∀ c ∈ indent, isGap c = true) :
      Laid rules t (insertions ++ [⟨callStart, front.plain.size, rule.key⟩])
        (indented ++ [⟨callStart, front.indented.size, rule.key⟩]) (front ++ rule.laid gaps ++ back)

/-- Two runs come to the same fault, or both to results that `R` holds of. -/
inductive Alike {α β : Type} (R : α → β → Prop) : Except Fault α → Except Fault β → Prop
  | error (fault : Fault) : Alike R (.error fault) (.error fault)
  | ok {a : α} {b : β} (h : R a b) : Alike R (.ok a) (.ok b)

theorem Alike.map {α β : Type} {R : α → α → Prop} {S : β → β → Prop} {f : α → β}
    {x y : Except Fault α} (h : Alike R x y) (hf : ∀ a b, R a b → S (f a) (f b)) :
    Alike S (f <$> x) (f <$> y) := by
  cases h with
  | error fault => exact .error fault
  | ok h => exact .ok (hf _ _ h)

/-! ## Argument lists in a layout -/

/-- The opening bracket of a call stands in a part that both texts have. -/
def Layout.Stands (b : Brackets) (l : Layout) (call : Call) : Prop :=
  ∃ front back, l = .chars (front ++ [b.opening]) ++ back ∧
    call.argsStart = Text.size front + b.opening.utf8Size

theorem Layout.Stands.of_le {b : Brackets} {call other : Call} {front : Text} {l : Layout}
    (h : (.chars (front ++ [b.opening]) ++ l : Layout).Stands b other)
    (hstart : call.argsStart = front.size + b.opening.utf8Size)
    (hle : other.argsStart ≤ call.argsStart) (l' : Layout) :
    (.chars (front ++ [b.opening]) ++ l' : Layout).Stands b other := by
  obtain ⟨front', back, hsplit, hstart'⟩ := h
  rcases List.append_eq_append_iff.1 hsplit with ⟨mid, hmid, -⟩ | ⟨mid, hmid, -⟩
  · obtain rfl : mid = [] := by
      cases mid with
      | nil => rfl
      | cons p mid =>
        have hsize := congrArg (fun l => Text.size (Layout.plain l)) hmid
        have hpos := p.plain.utf8Size_pos
        simp only [Layout.plain_append, Layout.plain_chars, Layout.plain_cons, Text.size_append,
          Text.size_cons, Text.size_nil] at hsize
        omega
    rw [List.append_nil] at hmid
    exact ⟨front', l', by rw [hmid], hstart'⟩
  · exact ⟨front', mid ++ l', by rw [hmid, List.append_assoc], hstart'⟩

namespace Filler

section

variable {filler : Filler} {call : Call} (hone : filler.target.brackets.opening.utf8Size = 1)
  (hopen : isGap filler.target.brackets.opening = false)
  (hclose : isGap filler.target.brackets.closing = false)

include hone hopen hclose

/-- The list of a call ends at one place of the layout, or in neither text. -/
theorem opens_or_unclosed_layout {front : Text}
    (hstart : call.argsStart = front.size + filler.target.brackets.opening.utf8Size) (l : Layout) :
    (∃ args back : Layout, l = args ++ back ∧
      call.Opens filler.target.brackets
        (.chars (front ++ [filler.target.brackets.opening]) ++ l : Layout).plain args.plain ∧
      call.Opens filler.target.brackets
        (.chars (front ++ [filler.target.brackets.opening]) ++ l : Layout).indented args.indented) ∨
      filler.target.remeasure
          (.chars (front ++ [filler.target.brackets.opening]) ++ l : Layout).plain call =
        .error (.unclosed filler.target.construct call.openOffset) ∧
      filler.target.remeasure
          (.chars (front ++ [filler.target.brackets.opening]) ++ l : Layout).indented call =
        .error (.unclosed filler.target.construct call.openOffset) := by
  simp only [Layout.plain_append, Layout.indented_append, Layout.plain_chars, Layout.indented_chars,
    List.append_assoc, List.cons_append, List.nil_append]
  have hsame := Layout.depth?_indented hopen hclose 0
  cases hdepth : filler.target.brackets.depth? 0 l.plain with
  | some e =>
    have hnone := Brackets.closingFrom?_of_depth?_eq_some hdepth call.argsStart
    have hnone' := Brackets.closingFrom?_of_depth?_eq_some ((hsame l).trans hdepth) call.argsStart
    refine Or.inr ⟨?_, ?_⟩
    · rw [Target.remeasure_eq hone hstart, Brackets.closing?, hnone]
    · rw [Target.remeasure_eq hone hstart, Brackets.closing?, hnone']
  | none =>
    obtain ⟨inner, back, hsplit, hinner⟩ := Brackets.exists_of_depth?_eq_none hdepth
    obtain ⟨args, rest, rfl, rfl, hrest⟩ := Layout.exists_append_of_plain hsplit
    obtain ⟨p, rest, rfl, hp, rfl⟩ := Layout.exists_cons_of_plain hrest
    obtain ⟨more, hmore⟩ : ∃ more, p.indented = filler.target.brackets.closing :: more := by
      rw [← hp]
      cases p with
      | char c => exact ⟨[], rfl⟩
      | line indent gaps => exact ⟨indent, rfl⟩
    refine Or.inl ⟨args, p :: rest, rfl, ⟨front, rest.plain, ?_, hstart, hinner⟩,
      ⟨front, more ++ rest.indented, ?_, hstart, (hsame args).trans hinner⟩⟩
    · simp [hp]
    · simp [hmore]

end

def indentedBy (filler : Filler) (indent : Indent) : Filler := { filler with indent }

@[simp] theorem indentedBy_target (filler : Filler) (indent : Indent) :
    (filler.indentedBy indent).target = filler.target := rfl

@[simp] theorem indentedBy_rules (filler : Filler) (indent : Indent) :
    (filler.indentedBy indent).rules = filler.rules := rfl

/-- Two texts on their way, one of them filled with indentation. They are the two readings of a
layout, and the calls still to be filled stand before the first place where they differ. -/
structure Parallel (filler : Filler) (t : Text) (calls : List Call) (p p' : Progress) (l : Layout) :
    Prop where
  plain : p.text = l.plain
  indented : p'.text = l.indented
  laid : Laid filler.rules t p.insertions p'.insertions l
  skips : p'.skips = p.skips
  stands : ∀ call ∈ calls, l.Stands filler.target.brackets call

inductive ParallelTurn (filler : Filler) (t : Text) (calls : List Call) : Turn → Turn → Prop
  | settled : ParallelTurn filler t calls .settled .settled
  | leftOut {p p' : Progress} {l : Layout} (rule : Rule) (h : filler.Parallel t calls p p' l) :
      ParallelTurn filler t calls (.leftOut rule p) (.leftOut rule p')
  | added {p p' : Progress} {l : Layout} (h : filler.Parallel t calls p p' l) :
      ParallelTurn filler t calls (.added p) (.added p')

/-! ## Turns -/

theorem exists_comma_of_slot? {anchor : Text} (hanchor : anchor.isName = true)
    {args upTo rest : Layout} (hsplit : args = upTo ++ rest)
    (hslot : args.plain.slot? anchor = some (0 + upTo.plain.size)) :
    ∃ x : Layout, upTo = x ++ [.char ','] := by
  obtain ⟨x, y, hargs, hsize, -⟩ := Text.slot?_eq_some hanchor hslot
  have hparts : upTo.plain ++ rest.plain = (x ++ [',']) ++ y := by
    rw [← Layout.plain_append, ← hsplit, hargs, List.append_assoc]
    rfl
  have hsame : Text.size upTo.plain = Text.size (x ++ [',']) := by
    rw [Text.size_append, ← Nat.zero_add (Text.size upTo.plain), hsize]
    rfl
  obtain ⟨before, comma, rfl, -, hcomma⟩ :=
    Layout.exists_append_of_plain (Text.append_inj_of_size_eq hparts hsame).1
  exact ⟨before, by rw [Layout.eq_chars_of_plain (by decide) hcomma]; rfl⟩

variable {filler : Filler} {t : Text} {calls : List Call} {call : Call} {p p' : Progress}

theorem next?_indented (haccepted : filler.refusal? = none) (args : Layout) (out : List Rule) :
    filler.next? args.indented out = filler.next? args.plain out := by
  refine List.find?_congr fun rule hrule => ?_
  rw [Layout.hasKey_indented (isName_of_refusal? haccepted hrule).1]

section

variable (haccepted : filler.refusal? = none)
  (hone : filler.target.brackets.opening.utf8Size = 1)
  (hne : filler.target.brackets.opening ≠ filler.target.brackets.closing)
  (hopen : isGap filler.target.brackets.opening = false)
  (hclose : isGap filler.target.brackets.closing = false)
  (hcalls : ∀ c ∈ calls, c.argsStart ≤ call.argsStart)

include haccepted hone hne hopen hclose hcalls

omit haccepted hone hne hopen hclose in
theorem Parallel.put {rule : Rule} (hrule : rule ∈ filler.rules) {indent : Text}
    (gaps : ∀ c ∈ indent, isGap c = true) {front : Text} {x back : Layout}
    (hstart : call.argsStart = front.size + filler.target.brackets.opening.utf8Size)
    (h : filler.Parallel t calls p p'
      ((.chars (front ++ [filler.target.brackets.opening]) ++ x) ++ .char ',' :: back))
    {before : Layout} (hbefore : before = .chars (front ++ [filler.target.brackets.opening]) ++ x) :
    filler.Parallel t calls
      (p.put call rule (before.plain.size + 1)
        (before.plain ++ ',' :: (rule.argument [] ++ ',' :: back.plain)))
      (p'.put call rule (before.indented.size + 1)
        (before.indented ++ ',' :: (rule.argument indent ++ ',' :: back.indented)))
      (before ++ .char ',' :: (rule.laid gaps ++ back)) := by
  refine ⟨(Layout.plain_put rule gaps before back).symm,
    (Layout.indented_put rule gaps before back).symm, ?_, h.skips, fun c hc => ?_⟩
  · have hlaid := h.laid
    rw [← hbefore, ← List.singleton_append, ← List.append_assoc] at hlaid
    have hparts : before ++ .char ',' :: (rule.laid gaps ++ back) =
        before ++ [.char ','] ++ rule.laid gaps ++ back := by simp
    rw [Progress.put_insertions, Progress.put_insertions, ← Layout.size_plain_comma,
      ← Layout.size_indented_comma, hparts]
    exact .snoc hlaid call.start hrule gaps
  · have hstands := h.stands c hc
    rw [List.append_assoc] at hstands
    rw [hbefore, List.append_assoc]
    exact hstands.of_le hstart (hcalls c hc) _

/-- Putting in an argument behind the same comma fails at both texts, or leads on. -/
theorem add_parallel {rule : Rule} (hrule : rule ∈ filler.rules) {front : Text} {x back : Layout}
    (hstart : call.argsStart = front.size + filler.target.brackets.opening.utf8Size)
    (h : filler.Parallel t calls p p'
      ((.chars (front ++ [filler.target.brackets.opening]) ++ x) ++ .char ',' :: back))
    {before : Layout} (hbefore : before = .chars (front ++ [filler.target.brackets.opening]) ++ x) :
    Alike (fun p p' => ∃ l, filler.Parallel t calls p p' l)
      ((filler.indentedBy .none).add call rule (before.plain.size + 1) p)
      ((filler.indentedBy .matchAnchor).add call rule (before.indented.size + 1) p') := by
  have hplain : p.text = before.plain ++ ',' :: back.plain := by
    rw [h.plain, ← hbefore, Layout.plain_append, Layout.plain_char]
  have hindented : p'.text = before.indented ++ ',' :: back.indented := by
    rw [h.indented, ← hbefore, Layout.indented_append, Layout.indented_char]
  have hflat : (filler.indentedBy .none).indentation p.text (before.plain.size + 1) = .ok [] := rfl
  obtain ⟨indent, hindent, gaps⟩ :=
    exists_indentation (filler.indentedBy .matchAnchor) before.indented back.indented
  rw [← hindented] at hindent
  have hput := h.put hcalls hrule gaps hstart hbefore
  have hboth : ∀ indent, (filler.indentedBy indent).target.brackets.opening.utf8Size = 1 :=
    fun _ => hone
  rcases opens_or_unclosed_layout hone hopen hclose hstart
    (x ++ .char ',' :: (rule.laid gaps ++ back)) with
    ⟨args, more, -, hopens, hopens'⟩ | ⟨hunclosed, hunclosed'⟩
  · rw [← List.append_assoc, ← hbefore, Layout.plain_put] at hopens
    rw [← List.append_assoc, ← hbefore, Layout.indented_put] at hopens'
    rw [add_of_opens (hboth .none) hne hplain hflat hopens,
      add_of_opens (hboth .matchAnchor) hne hindented hindent hopens',
      Layout.hasKey_indented (isName_of_refusal? haccepted hrule).1]
    cases args.plain.hasKey rule.key with
    | false => exact .error _
    | true => exact .ok ⟨_, hput⟩
  · rw [← List.append_assoc, ← hbefore, Layout.plain_put] at hunclosed
    rw [← List.append_assoc, ← hbefore, Layout.indented_put] at hunclosed'
    rw [add_eq hplain hflat, add_eq hindented hindent, indentedBy_target, indentedBy_target,
      hunclosed, hunclosed']
    exact .error _

/-- A turn does the same at both texts. -/
theorem turn_parallel {out : List Rule} {l : Layout} (hcall : call ∈ calls)
    (h : filler.Parallel t calls p p' l) :
    Alike (filler.ParallelTurn t calls) ((filler.indentedBy .none).turn call out p)
      ((filler.indentedBy .matchAnchor).turn call out p') := by
  obtain ⟨front, body, rfl, hstart⟩ := h.stands call hcall
  rcases opens_or_unclosed_layout hone hopen hclose hstart body with
    ⟨args, back, rfl, hopens, hopens'⟩ | ⟨hunclosed, hunclosed'⟩
  · rw [← h.plain] at hopens
    rw [← h.indented] at hopens'
    have hboth : ∀ indent, (filler.indentedBy indent).target.brackets.opening.utf8Size = 1 :=
      fun _ => hone
    have hnext' := next?_indented haccepted args out
    cases hnext : filler.next? args.plain out with
    | none =>
      rw [hnext] at hnext'
      rw [turn_of_settled (hboth .none) hne hopens hnext,
        turn_of_settled (hboth .matchAnchor) hne hopens' hnext']
      exact .ok .settled
    | some rule =>
      rw [hnext] at hnext'
      have hrule := (of_next?_eq_some hnext).1
      have hanchor := (isName_of_refusal? haccepted hrule).2
      have hmeet := Layout.meet_slot? hanchor args
      generalize hslot : args.plain.slot? rule.anchor = place at hmeet
      generalize hslot' : args.indented.slot? rule.anchor = place' at hmeet
      cases hmeet with
      | none =>
        have hskips : (p'.leave call rule).skips = (p.leave call rule).skips := by
          rw [Progress.leave_skips, Progress.leave_skips, h.skips]
        rw [turn_of_leftOut (hboth .none) hne hopens hnext hslot,
          turn_of_leftOut (hboth .matchAnchor) hne hopens' hnext' hslot']
        exact .ok (.leftOut rule ⟨h.plain, h.indented, h.laid, hskips, h.stands⟩)
      | some upTo rest hsplit =>
        obtain ⟨x, rfl⟩ := exists_comma_of_slot? hanchor hsplit hslot
        subst hsplit
        have hplace : call.argsStart + (0 + Text.size (x ++ [Piece.char ',']).plain) =
            Text.size (.chars (front ++ [filler.target.brackets.opening]) ++ x : Layout).plain + 1 := by
          rw [Layout.size_plain_comma, Layout.plain_append, Layout.plain_chars,
            size_behind_comma hstart]
        have hplace' : call.argsStart + (0 + Text.size (x ++ [Piece.char ',']).indented) =
            Text.size (.chars (front ++ [filler.target.brackets.opening]) ++ x : Layout).indented +
              1 := by
          rw [Layout.size_indented_comma, Layout.indented_append, Layout.indented_chars,
            size_behind_comma hstart]
        have hadd := add_parallel haccepted hone hne hopen hclose hcalls hrule hstart
          (by simpa using h : filler.Parallel t calls p p'
            ((.chars (front ++ [filler.target.brackets.opening]) ++ x) ++ .char ',' :: (rest ++ back)))
          rfl
        rw [turn_of_slot (hboth .none) hne hopens hnext hslot,
          turn_of_slot (hboth .matchAnchor) hne hopens' hnext' hslot', hplace, hplace']
        exact hadd.map fun _ _ ⟨l, hparallel⟩ => .added hparallel
  · rw [← h.plain] at hunclosed
    rw [← h.indented] at hunclosed'
    rw [turn, turn, indentedBy_target, indentedBy_target, hunclosed, hunclosed']
    exact .error _

theorem fillCall_parallel {left : Nat} {out : List Rule} {l : Layout} (hcall : call ∈ calls)
    (h : filler.Parallel t calls p p' l) :
    Alike (fun p p' => ∃ l, filler.Parallel t calls p p' l)
      ((filler.indentedBy .none).fillCall call left out p)
      ((filler.indentedBy .matchAnchor).fillCall call left out p') := by
  induction left generalizing out p p' l with
  | zero => exact .error _
  | succ left ih =>
    have hturn : Alike _ ((filler.indentedBy .none).turn call out p)
        ((filler.indentedBy .matchAnchor).turn call out p') :=
      turn_parallel haccepted hone hne hopen hclose hcalls hcall h
    rw [fillCall, fillCall]
    generalize (filler.indentedBy .none).turn call out p = turn at hturn ⊢
    generalize (filler.indentedBy .matchAnchor).turn call out p' = turn' at hturn ⊢
    cases hturn with
    | error fault => exact .error fault
    | ok hturn =>
      cases hturn with
      | settled => exact .ok ⟨l, h⟩
      | leftOut rule hnext => exact ih hnext
      | added hnext => exact ih hnext

end

/-! ## Runs -/

section

variable (haccepted : filler.refusal? = none)
  (hone : filler.target.brackets.opening.utf8Size = 1)
  (hopen : isGap filler.target.brackets.opening = false)
  (hclose : isGap filler.target.brackets.closing = false)

include haccepted hone hopen hclose

theorem fillCalls_parallel {budget : Nat}
    (hne : calls ≠ [] → filler.target.brackets.opening ≠ filler.target.brackets.closing)
    (horder : calls.Pairwise fun call before => before.argsStart < call.argsStart) {l : Layout}
    (h : filler.Parallel t calls p p' l) :
    Alike (fun p p' => ∃ l, filler.Parallel t [] p p' l)
      ((filler.indentedBy .none).fillCalls budget calls p)
      ((filler.indentedBy .matchAnchor).fillCalls budget calls p') := by
  induction calls generalizing p p' l with
  | nil => exact .ok ⟨l, h⟩
  | cons call calls ih =>
    obtain ⟨hbefore, horder⟩ := List.pairwise_cons.1 horder
    have hdiffer := hne (List.cons_ne_nil call calls)
    have hcalls : ∀ c ∈ call :: calls, c.argsStart ≤ call.argsStart := by
      intro c hc
      rcases List.mem_cons.1 hc with rfl | hc
      · exact Nat.le_refl _
      · exact Nat.le_of_lt (hbefore c hc)
    have hcall : Alike _ ((filler.indentedBy .none).fillCall call budget [] p)
        ((filler.indentedBy .matchAnchor).fillCall call budget [] p') :=
      fillCall_parallel haccepted hone hdiffer hopen hclose hcalls List.mem_cons_self h
    rw [fillCalls, fillCalls, List.foldlM_cons, List.foldlM_cons]
    generalize (filler.indentedBy .none).fillCall call budget [] p = next at hcall ⊢
    generalize (filler.indentedBy .matchAnchor).fillCall call budget [] p' = next' at hcall ⊢
    cases hcall with
    | error fault => exact .error fault
    | ok hnext =>
      obtain ⟨l', hplain, hindented, hlaid, hskips, hstands⟩ := hnext
      exact ih (fun _ => hdiffer) horder
        ⟨hplain, hindented, hlaid, hskips, fun c hc => hstands c (List.mem_cons_of_mem call hc)⟩

omit haccepted hone hopen hclose in
theorem parallel_first (hlocate : filler.target.locate t = .ok calls) :
    filler.Parallel t calls.reverse ⟨t, [], []⟩ ⟨t, [], []⟩ (.chars t) := by
  refine ⟨by simp, by simp, .none, rfl, fun call hcall => ?_⟩
  rw [List.mem_reverse] at hcall
  obtain ⟨args, front, back, ht, hstart, -⟩ := Target.exists_hasArgs_of_mem_locate hlocate hcall
  have hsplit : t = (front ++ [filler.target.brackets.opening]) ++
      (args ++ filler.target.brackets.closing :: back) := by
    rw [ht]
    simp
  exact ⟨front, _, by rw [← Layout.chars_append, ← hsplit], hstart⟩

end

theorem addedKeys_of_laid {rules : List Rule} {insertions indented : List Insertion} {l : Layout}
    (h : Laid rules t insertions indented l) : addedKeys indented = addedKeys insertions := by
  induction h with
  | none => rfl
  | snoc _ callStart hrule gaps ih =>
    unfold addedKeys at ih ⊢
    rw [List.map_append, List.map_append, ih]
    rfl

/-- **Indentation changes only white space.** With and without it a filler comes to the same fault, or
it counts the same calls, adds the same arguments to them in the same order and leaves the same rules
out, and the results are the two readings of one layout: they differ in the spaces and tabs behind the
line feed with which each of these arguments begins. -/
theorem apply_indentation (haccepted : filler.refusal? = none)
    (hone : filler.target.brackets.opening.utf8Size = 1)
    (hopen : isGap filler.target.brackets.opening = false)
    (hclose : isGap filler.target.brackets.closing = false) (budget : Nat) (t : Text) :
    (∃ fault, (filler.indentedBy .none).apply budget t = .error fault ∧
      (filler.indentedBy .matchAnchor).apply budget t = .error fault) ∨
    ∃ u u' report report', (filler.indentedBy .none).apply budget t = .ok (u, report) ∧
      (filler.indentedBy .matchAnchor).apply budget t = .ok (u', report') ∧
      report'.callCount = report.callCount ∧
      addedKeys report'.insertions = addedKeys report.insertions ∧ report'.skips = report.skips ∧
      ∃ l : Layout, Laid filler.rules t report.insertions report'.insertions l ∧
        l.plain = u ∧ l.indented = u' := by
  have hname := isQualifiedName_of_refusal? haccepted
  cases hlocate : filler.target.locate t with
  | error fault =>
    exact Or.inl ⟨fault, apply_of_locate_error hlocate, apply_of_locate_error hlocate⟩
  | ok calls =>
    by_cases hrules : filler.rules = []
    · exact Or.inr ⟨t, t, _, _, apply_of_rules_nil hlocate hrules, apply_of_rules_nil hlocate hrules,
        rfl, rfl, rfl, .chars t, .none, by simp, by simp⟩
    · have horder := Target.pairwise_reverse_locate hname hlocate
      have hsome : calls.reverse ≠ [] →
          filler.target.brackets.opening ≠ filler.target.brackets.closing := by
        intro hcalls
        obtain ⟨call, hcall⟩ := List.exists_mem_of_ne_nil _ hcalls
        exact Target.differ_of_mem_locate hlocate (List.mem_reverse.1 hcall)
      have hfill : Alike _ ((filler.indentedBy .none).fillCalls budget calls.reverse ⟨t, [], []⟩)
          ((filler.indentedBy .matchAnchor).fillCalls budget calls.reverse ⟨t, [], []⟩) :=
        fillCalls_parallel haccepted hone hopen hclose hsome horder (parallel_first hlocate)
      have happly : (filler.indentedBy .none).apply budget t = _ := apply_of_locate hlocate hrules
      have happly' : (filler.indentedBy .matchAnchor).apply budget t = _ :=
        apply_of_locate hlocate hrules
      rw [happly, happly']
      generalize (filler.indentedBy .none).fillCalls budget calls.reverse ⟨t, [], []⟩ = filled
        at hfill ⊢
      generalize (filler.indentedBy .matchAnchor).fillCalls budget calls.reverse ⟨t, [], []⟩ =
        filled' at hfill ⊢
      cases hfill with
      | error fault => exact Or.inl ⟨fault, rfl, rfl⟩
      | ok hlast =>
        obtain ⟨l, hplain, hindented, hlaid, hskips, -⟩ := hlast
        exact Or.inr ⟨_, _, _, _, rfl, rfl, rfl, addedKeys_of_laid hlaid, hskips, l, hlaid,
          hplain.symm, hindented.symm⟩

/-- Each of two calls, one within the other, gets an argument. The second line of the first argument is
part of its literal, and not indented. -/
theorem apply_indentation_sample :
    let filler : Filler :=
      ⟨⟨['P'], .round⟩, [⟨['b'], ['a'], "'(\n\\')'".toList⟩, ⟨['c'], ['z'], ['1']⟩], .none⟩
    let t := "P(\n\ta: [P(\n\t\ta: 0,\n\t)],\n\tz: 0,\n)".toList
    let u := "P(\n\ta: [P(\n\t\ta: 0,\nb: '(\n\\')',\n\t)],\n\tz: 0,\nc: 1,\n)".toList
    let u' := "P(\n\ta: [P(\n\t\ta: 0,\n\t\tb: '(\n\\')',\n\t)],\n\tz: 0,\n\tc: 1,\n)".toList
    let report : Report := ⟨['P'], 2, [⟨8, 18, ['b']⟩, ⟨0, 42, ['c']⟩], [⟨8, ['c'], ['z']⟩]⟩
    let report' : Report := ⟨['P'], 2, [⟨8, 18, ['b']⟩, ⟨0, 44, ['c']⟩], [⟨8, ['c'], ['z']⟩]⟩
    filler.refusal? = none ∧ filler.target.brackets.opening.utf8Size = 1 ∧
    isGap filler.target.brackets.opening = false ∧ isGap filler.target.brackets.closing = false ∧
    (filler.indentedBy .none).apply 3 t = .ok (u, report) ∧
    (filler.indentedBy .matchAnchor).apply 3 t = .ok (u', report') ∧
    report'.callCount = report.callCount ∧
    addedKeys report'.insertions = addedKeys report.insertions ∧ report'.skips = report.skips ∧
    ∃ l : Layout, Laid filler.rules t report.insertions report'.insertions l ∧
      l.plain = u ∧ l.indented = u' := by
  intro filler t u u' report report'
  have haccepted : filler.refusal? = none := by decide +kernel
  have hone : filler.target.brackets.opening.utf8Size = 1 := by decide
  have hopen : isGap filler.target.brackets.opening = false := by decide
  have hclose : isGap filler.target.brackets.closing = false := by decide
  have hplain : (filler.indentedBy .none).apply 3 t = .ok (u, report) := by decide +kernel
  have hindented : (filler.indentedBy .matchAnchor).apply 3 t = .ok (u', report') := by decide +kernel
  refine ⟨haccepted, hone, hopen, hclose, hplain, hindented, ?_⟩
  rcases apply_indentation haccepted hone hopen hclose 3 t with
    ⟨fault, hfault, -⟩ | ⟨v, v', r, r', hv, hv', hsame⟩
  · rw [hplain] at hfault
    cases hfault
  · obtain ⟨rfl, rfl⟩ := Prod.mk.inj (Except.ok.inj (hplain.symm.trans hv))
    obtain ⟨rfl, rfl⟩ := Prod.mk.inj (Except.ok.inj (hindented.symm.trans hv'))
    exact hsame

end Filler

end ArgFill
