import ArgFill.Proofs.Replay
import ArgFill.Proofs.Settling

/-!
# Every offset is a character boundary

Offsets count bytes, so reading a part of a text, or putting an argument in, can miss a character.
Here are the parts that are read on the way:

* `Target.Reads` : in locating the calls of a text;
* `Filler.Touches` : in one turn at a call, from measuring it, over the search for slots and the
  indentation, to measuring it again with an argument put in.

A turn misses a character only where it touches what is no part (`exists_touches_of_turn`). That
everything it touches is one rests on `Run.waiting`: up to the bracket that opens its arguments, the
text before a call still to be filled is the text that the run began with, whatever the literals do
to the lists behind that bracket. `apply_in_bounds` puts this together for whole runs.
-/

namespace ArgFill

namespace Text

/-- Two offsets bound a part of a text. They are in range and in order, and each of them is a
character boundary. -/
def HasPart (t : Text) (first last : Nat) : Prop :=
  ∃ front inner back : Text, t = front ++ inner ++ back ∧ front.size = first ∧
    (front ++ inner).size = last

variable {t args key added : Text} {offset first last : Nat}

theorem isSome_between?_iff : (t.between? first last).isSome = true ↔ t.HasPart first last := by
  rw [Option.isSome_iff_exists]
  constructor
  · rintro ⟨inner, h⟩
    obtain ⟨front, back, h⟩ := between?_eq_some_iff.1 h
    exact ⟨front, inner, back, h⟩
  · rintro ⟨front, inner, back, h⟩
    exact ⟨inner, between?_eq_some_iff.2 ⟨front, back, h⟩⟩

theorem hasPart_upTo (front back : Text) : (front ++ back).HasPart 0 front.size :=
  ⟨[], front, back, rfl, rfl, rfl⟩

theorem hasPart_from (front back : Text) : (front ++ back).HasPart front.size (front ++ back).size :=
  ⟨front, back, [], (List.append_nil _).symm, rfl, rfl⟩

theorem hasPart_self (t : Text) : t.HasPart 0 t.size :=
  ⟨[], t, [], (List.append_nil _).symm, rfl, rfl⟩

theorem hasPart_takeWhile (p : Char → Bool) (t : Text) :
    t.HasPart 0 (Text.size (t.takeWhile p)) := by
  have h := hasPart_upTo (t.takeWhile p) (t.dropWhile p)
  rwa [List.takeWhile_append_dropWhile] at h

theorem hasPart_lastLine (front back : Text) :
    (front ++ back).HasPart (front.size - front.lastLine.size) (front ++ back).size := by
  obtain ⟨before, hbefore⟩ : ∃ before : Text, front = before ++ front.lastLine := by
    refine ⟨(front.reverse.dropWhile (· ≠ '\n')).reverse, ?_⟩
    rw [lastLine, ← List.reverse_append, List.takeWhile_append_dropWhile, List.reverse_reverse]
  have hsize := congrArg size hbefore
  rw [size_append] at hsize
  have hpart := hasPart_from before (front.lastLine ++ back)
  rw [← List.append_assoc, ← hbefore] at hpart
  rwa [hsize, Nat.add_sub_cancel]

theorem HasPart.exists_cut? (h : t.HasPart first last) :
    (∃ parts, t.cut? first = some parts) ∧ ∃ parts, t.cut? last = some parts := by
  obtain ⟨front, inner, back, rfl, rfl, rfl⟩ := h
  refine ⟨⟨(front, inner ++ back), ?_⟩, ⟨(front ++ inner, back), ?_⟩⟩
  · rw [List.append_assoc]
    exact cut?_size_append _ _
  · exact cut?_size_append _ _

/-! ## Looking for a slot -/

/-- The parts of an argument list that are read in looking for the slot of `key`: all of it, and
what begins at an anchor, behind its key or behind its colon. -/
inductive SlotReads (args key : Text) : Nat → Nat → Prop
  | list : SlotReads args key 0 args.size
  | anchor {a : Anchor} (h : a ∈ args.anchors key) : SlotReads args key a.offset args.size
  | behindKey {a : Anchor} (h : a ∈ args.anchors key) :
      SlotReads args key (a.offset + key.size) args.size
  | value {a : Anchor} (h : a ∈ args.anchors key) : SlotReads args key a.value.1 args.size

/-- An anchor, spelled out in the argument list. -/
theorem exists_of_mem_anchors (hkey : key.isName = true) {a : Anchor} (h : a ∈ args.anchors key) :
    ∃ pre gaps value : Text, args = pre ++ (key ++ (gaps ++ ':' :: value)) ∧ a.offset = pre.size ∧
      a.value.1 = pre.size + (key ++ gaps).size + 1 := by
  obtain ⟨pre, rest, rfl, hcolon, -, -, rfl⟩ := (mem_anchors_iff hkey).1 h
  obtain ⟨gaps, value, rfl, hgaps⟩ := colonFollows_iff.1 hcolon
  refine ⟨pre, gaps, value, rfl, rfl, ?_⟩
  rw [value_eq hkey hgaps]

theorem SlotReads.hasPart (hkey : key.isName = true) (h : SlotReads args key first last) :
    args.HasPart first last := by
  cases h with
  | list => exact hasPart_self args
  | anchor h =>
    obtain ⟨pre, gaps, value, rfl, hoffset, -⟩ := exists_of_mem_anchors hkey h
    rw [hoffset]
    exact hasPart_from _ _
  | behindKey h =>
    obtain ⟨pre, gaps, value, rfl, hoffset, -⟩ := exists_of_mem_anchors hkey h
    rw [hoffset, ← size_append, ← List.append_assoc]
    exact hasPart_from _ _
  | value h =>
    obtain ⟨pre, gaps, value, rfl, -, hvalue⟩ := exists_of_mem_anchors hkey h
    have hsize : pre.size + (key ++ gaps).size + 1 = (pre ++ (key ++ (gaps ++ [':']))).size := by
      simp only [size_append, size_cons, size_nil, show ':'.utf8Size = 1 from rfl]
      omega
    have hsplit : pre ++ (key ++ (gaps ++ ':' :: value)) =
        pre ++ (key ++ (gaps ++ [':'])) ++ value := by simp
    rw [hvalue, hsize, hsplit]
    exact hasPart_from _ _

end Text

/-! ## Locating -/

namespace Target

/-- The parts of a text that are read in locating calls: all of it, each occurrence of the name and
what is behind it, and what is behind the bracket of a call. -/
inductive Reads (target : Target) (t : Text) : Nat → Nat → Prop
  | all : Reads target t 0 t.size
  | name {o : Occurrence} (h : o ∈ t.occurrences target.construct) :
      Reads target t o.offset (o.offset + target.construct.size)
  | behindName {o : Occurrence} (h : o ∈ t.occurrences target.construct) :
      Reads target t (o.offset + target.construct.size) t.size
  | list {o : Occurrence} (h : o ∈ t.occurrences target.construct) (hopens : target.opensAt o = true) :
      Reads target t (o.offset + target.construct.size + Text.size (o.after.takeWhile isBlankChar) +
        target.brackets.opening.utf8Size) t.size

variable {target : Target} {t : Text} {first last : Nat}

/-- Locating reads parts of the text. -/
theorem Reads.hasPart (h : target.Reads t first last) : t.HasPart first last := by
  cases h with
  | all => exact Text.hasPart_self t
  | name h =>
    obtain ⟨pre, ht, hoffset, -⟩ := Text.mem_occurrences h
    exact ⟨pre, _, _, ht, hoffset.symm, by rw [Text.size_append, hoffset]⟩
  | behindName h =>
    obtain ⟨pre, ht, hoffset, -⟩ := Text.mem_occurrences h
    rw [hoffset, ← Text.size_append, ht]
    exact Text.hasPart_from _ _
  | @list o h hopens =>
    obtain ⟨pre, ht, hoffset, -⟩ := Text.mem_occurrences h
    obtain ⟨-, hopen, blanks, rest, hafter, hblanks⟩ := exists_of_opensAt hopens
    have htake : o.after.takeWhile isBlankChar = blanks := by
      rw [hafter, List.takeWhile_append_of_pos hblanks,
        List.takeWhile_cons_of_neg (by rw [hopen]; decide), List.append_nil]
    have hsize : pre.size + target.construct.size + Text.size blanks +
        target.brackets.opening.utf8Size =
          (pre ++ target.construct ++ blanks ++ [target.brackets.opening]).size := by
      simp only [Text.size_append, Text.size_cons, Text.size_nil]
      omega
    have hsplit : t =
        pre ++ target.construct ++ blanks ++ [target.brackets.opening] ++ rest := by
      rw [ht, hafter]
      simp
    rw [htake, hoffset, hsize, hsplit]
    exact Text.hasPart_from _ _

/-- The parts of a text that are read in measuring a call: what is behind its opening bracket, and
its arguments. -/
inductive Measures (target : Target) (call : Call) (t : Text) : Nat → Nat → Prop
  | list : Measures target call t (call.openOffset + target.brackets.opening.utf8Size) t.size
  | args {now : Call} (h : target.remeasure t call = .ok now) :
      Measures target call t now.argsStart now.argsEnd

variable {call now : Call}

theorem remeasure_ne_badOffset (h : t.HasPart
    (call.openOffset + target.brackets.opening.utf8Size) t.size) :
    target.remeasure t call ≠ .error .badOffset := by
  obtain ⟨⟨front, rest⟩, hcut⟩ := h.exists_cut?.1
  intro hbad
  simp only [remeasure, hcut, Fault.ofPlace, bind, Except.bind] at hbad
  split at hbad <;> cases hbad

theorem argsStart_of_remeasure (h : target.remeasure t call = .ok now) :
    now.argsStart = call.argsStart := by
  cases hcut : t.cut? (call.openOffset + target.brackets.opening.utf8Size) with
  | none =>
    rw [remeasure, hcut] at h
    cases h
  | some parts =>
    simp only [remeasure, hcut, Fault.ofPlace, bind, Except.bind] at h
    split at h
    · obtain rfl := Except.ok.inj h
      rfl
    · cases h

end Target

/-! ## Turns -/

theorem argsOf_of_hasPart {t : Text} {call : Call} (h : t.HasPart call.argsStart call.argsEnd) :
    ∃ args, call.args? t = some args ∧ argsOf t call = .ok args := by
  obtain ⟨args, hargs⟩ := Option.isSome_iff_exists.1 (Text.isSome_between?_iff.2 h)
  exact ⟨args, hargs, Fault.ofPlace_eq_ok_iff.2 hargs⟩

namespace Filler

/-- A rule has its slot in the argument list of a call at an offset of the text. -/
def Places (filler : Filler) (call : Call) (t : Text) (rule : Rule) (offset : Nat) : Prop :=
  ∃ now, rule ∈ filler.rules ∧ filler.target.remeasure t call = .ok now ∧
    slot t now rule = .ok offset

/-- The parts that a turn at a call may touch, each with the text that it is to be a part of: the
text as the turn finds it, the argument list, the line of a slot, or the text with an argument put
in. -/
inductive Touches (filler : Filler) (call : Call) (t : Text) : Text → Nat → Nat → Prop
  | measured {first last : Nat} (h : filler.target.Measures call t first last) :
      Touches filler call t t first last
  | searched {now : Call} {args : Text} {rule : Rule} {first last : Nat} (hrule : rule ∈ filler.rules)
      (hnow : filler.target.remeasure t call = .ok now) (hargs : now.args? t = some args)
      (h : args.SlotReads rule.anchor first last) : Touches filler call t args first last
  | upToSlot {rule : Rule} {offset : Nat} (h : filler.Places call t rule offset) :
      Touches filler call t t 0 offset
  | behindSlot {rule : Rule} {offset : Nat} (h : filler.Places call t rule offset) :
      Touches filler call t t offset t.size
  | line {rule : Rule} {offset : Nat} {front back : Text} (h : filler.Places call t rule offset)
      (hcut : t.cut? offset = some (front, back)) :
      Touches filler call t t (front.size - front.lastLine.size) t.size
  | indent {rule : Rule} {offset : Nat} {front back : Text} (h : filler.Places call t rule offset)
      (hcut : t.cut? offset = some (front, back)) :
      Touches filler call t (front.lastLine ++ back) 0
        (Text.size ((front.lastLine ++ back).takeWhile isGap))
  | grown {rule : Rule} {offset first last : Nat} {indent u : Text}
      (h : filler.Places call t rule offset) (hindent : filler.indentation t offset = .ok indent)
      (hinsert : t.insert? offset (rule.insertion indent) = some u)
      (hread : filler.target.Measures call u first last) : Touches filler call t u first last

variable {filler : Filler} {call : Call} {t : Text} {budget : Nat}

/-! ### A character is missed only where something is no part -/

theorem add_ne_badOffset {rule : Rule} {offset : Nat} {p : Progress}
    (h : filler.Places call p.text rule offset)
    (hparts : ∀ u first last, filler.Touches call p.text u first last → u.HasPart first last) :
    filler.add call rule offset p ≠ .error .badOffset := by
  obtain ⟨⟨front, back⟩, hcut⟩ := (hparts _ _ _ (.upToSlot h)).exists_cut?.2
  have hindent : ∃ indent, filler.indentation p.text offset = .ok indent := by
    unfold indentation
    cases filler.indent with
    | none => exact ⟨[], rfl⟩
    | matchAnchor =>
      refine ⟨(front.lastLine ++ back).takeWhile isGap, Fault.ofPlace_eq_ok_iff.2 ?_⟩
      obtain ⟨htext, hsize⟩ := Text.cut?_eq_some_iff.1 hcut
      exact Text.indentAt?_eq_some_iff.2 ⟨front, back, htext, hsize, rfl⟩
  obtain ⟨indent, hindent⟩ := hindent
  have hinsert : p.text.insert? offset (rule.insertion indent) =
      some (front ++ rule.insertion indent ++ back) := by
    obtain ⟨htext, hsize⟩ := Text.cut?_eq_some_iff.1 hcut
    exact Text.insert?_eq_some_iff.2 ⟨front, back, htext, hsize, rfl⟩
  have hgrown := fun {first last} hread =>
    hparts _ first last (.grown h hindent hinsert hread)
  intro hbad
  simp only [add, hindent, hinsert, Fault.ofPlace, bind, Except.bind] at hbad
  cases hnow : filler.target.remeasure (front ++ rule.insertion indent ++ back) call with
  | error fault =>
    rw [hnow] at hbad
    obtain rfl := Except.error.inj hbad
    exact Target.remeasure_ne_badOffset (hgrown .list) hnow
  | ok now =>
    obtain ⟨args, -, hargs⟩ := argsOf_of_hasPart (hgrown (.args hnow))
    simp only [hnow, isPresent_of_argsOf hargs] at hbad
    split at hbad <;> cases hbad

/-- A turn misses a character only where it touches what is no part. -/
theorem exists_touches_of_turn {out : List Rule} {p : Progress}
    (h : filler.turn call out p = .error .badOffset) :
    ∃ u first last, filler.Touches call p.text u first last ∧ ¬ u.HasPart first last := by
  by_contra hnone
  have hparts : ∀ u first last, filler.Touches call p.text u first last → u.HasPart first last := by
    intro u first last htouch
    by_contra hpart
    exact hnone ⟨u, first, last, htouch, hpart⟩
  rw [turn] at h
  cases hnow : filler.target.remeasure p.text call with
  | error fault =>
    rw [hnow] at h
    obtain rfl := Except.error.inj h
    exact Target.remeasure_ne_badOffset (hparts _ _ _ (.measured .list)) hnow
  | ok now =>
    obtain ⟨args, -, hargs⟩ := argsOf_of_hasPart (hparts _ _ _ (.measured (.args hnow)))
    simp only [hnow, missing_of_argsOf hargs, find?_missing, bind, Except.bind] at h
    cases hnext : filler.next? args out with
    | none =>
      rw [hnext] at h
      cases h
    | some rule =>
      simp only [hnext] at h
      cases hslot : slot p.text now rule with
      | error fault =>
        rw [slot_of_argsOf hargs] at hslot
        simp only [slot_of_argsOf hargs] at h
        cases hplace : args.slot? rule.anchor with
        | none =>
          rw [hplace] at h
          cases h
        | some place =>
          rw [hplace] at hslot
          cases hslot
      | ok offset =>
        simp only [hslot] at h
        have hplaces : filler.Places call p.text rule offset :=
          ⟨now, (of_next?_eq_some hnext).1, hnow, hslot⟩
        cases hadd : filler.add call rule offset p with
        | ok next =>
          rw [hadd] at h
          cases h
        | error fault =>
          rw [hadd] at h
          obtain rfl := Except.error.inj h
          exact add_ne_badOffset hplaces hparts hadd

end Filler

/-! ## What stands before the arguments -/

/-- Up to the bracket that opens its arguments, the text `u` before a call is that of `t`. -/
def Call.Kept (b : Brackets) (t u : Text) (call : Call) : Prop :=
  ∃ front rest now : Text, t = front ++ b.opening :: rest ∧ u = front ++ b.opening :: now ∧
    call.argsStart = front.size + b.opening.utf8Size

namespace Call

variable {b : Brackets} {t u v added : Text} {call : Call} {offset : Nat}

theorem Stands.kept (h : call.Stands b t) : call.Kept b t t := by
  obtain ⟨front, rest, ht, hstart⟩ := h
  exact ⟨front, rest, rest, ht, ht, hstart⟩

theorem Kept.stands (h : call.Kept b t u) : call.Stands b u := by
  obtain ⟨front, -, now, -, hu, hstart⟩ := h
  exact ⟨front, now, hu, hstart⟩

theorem HasArgs.stands {args : Text} (h : call.HasArgs b t args) : call.Stands b t := by
  obtain ⟨front, back, ht, hstart, -, -⟩ := h
  exact ⟨front, args ++ b.closing :: back, ht, hstart⟩

theorem Kept.insert (h : call.Kept b t u) (hle : call.argsStart ≤ offset)
    (hinsert : u.insert? offset added = some v) : call.Kept b t v := by
  obtain ⟨front, rest, now, ht, rfl, hstart⟩ := h
  obtain ⟨before, behind, hsplit, rfl, rfl⟩ := Text.insert?_eq_some_iff.1 hinsert
  have hsize : (front ++ [b.opening]).size = call.argsStart := by
    rw [Text.size_append, Text.size_cons, Text.size_nil]
    omega
  have heq : (front ++ [b.opening]) ++ now = before ++ behind := by
    rw [← hsplit]
    simp
  obtain ⟨mid, rfl, -⟩ := Text.exists_append_of_size_le heq (by omega)
  exact ⟨front, rest, mid ++ added ++ behind, ht, by simp, hstart⟩

end Call

namespace Filler

variable {filler : Filler} {call : Call} {t : Text} {budget : Nat}

/-- An argument is put in behind the beginning of the list. -/
theorem Places.argsStart_lt (haccepted : filler.refusal? = none) {rule : Rule} {offset : Nat}
    (h : filler.Places call t rule offset) : call.argsStart < offset := by
  obtain ⟨now, hrule, hnow, hslot⟩ := h
  obtain ⟨args, place, -, hplace, rfl⟩ := exists_place_of_slot hslot
  obtain ⟨x, y, -, rfl, -⟩ := Text.slot?_eq_some (isName_of_refusal? haccepted hrule).2 hplace
  rw [Target.argsStart_of_remeasure hnow]
  omega

section

variable (hone : filler.target.brackets.opening.utf8Size = 1)

include hone

theorem differ_of_remeasure (hstands : call.Stands filler.target.brackets t) {now : Call}
    (hnow : filler.target.remeasure t call = .ok now) :
    filler.target.brackets.opening ≠ filler.target.brackets.closing := by
  obtain ⟨front, rest, rfl, hstart⟩ := hstands
  intro heq
  rw [Target.remeasure_eq hone hstart, Brackets.closing?, Brackets.closingFrom?_of_eq heq] at hnow
  cases hnow

theorem exists_hasArgs_of_remeasure (hstands : call.Stands filler.target.brackets t) {now : Call}
    (hnow : filler.target.remeasure t call = .ok now) :
    ∃ args, now.HasArgs filler.target.brackets t args := by
  have hne := differ_of_remeasure hone hstands hnow
  obtain ⟨front, rest, rfl, hstart⟩ := hstands
  rcases opens_or_unclosed hone hne hstart rest with ⟨args, hopens⟩ | hunclosed
  · rw [remeasure_of_opens hone hne hopens] at hnow
    obtain rfl := Except.ok.inj hnow
    exact ⟨args, hopens.hasArgs⟩
  · rw [hunclosed] at hnow
    cases hnow

theorem Measures.hasPart {first last : Nat} (hstands : call.Stands filler.target.brackets t)
    (h : filler.target.Measures call t first last) : t.HasPart first last := by
  cases h with
  | list =>
    obtain ⟨front, rest, rfl, hstart⟩ := hstands
    have hsize : call.openOffset + filler.target.brackets.opening.utf8Size =
        (front ++ [filler.target.brackets.opening]).size := by
      rw [Call.openOffset, Text.size_append, Text.size_cons, Text.size_nil]
      omega
    have hsplit : front ++ filler.target.brackets.opening :: rest =
        (front ++ [filler.target.brackets.opening]) ++ rest := by simp
    rw [hsize, hsplit]
    exact Text.hasPart_from _ _
  | args hnow =>
    obtain ⟨args, hargs⟩ := exists_hasArgs_of_remeasure hone hstands hnow
    refine Text.isSome_between?_iff.1 (Option.isSome_iff_exists.2 ⟨args, hargs.args?⟩)

/-- Where an opening bracket stands before its arguments, a turn at a call touches parts only. -/
theorem Touches.hasPart (haccepted : filler.refusal? = none) {u : Text} {first last : Nat}
    (hstands : call.Stands filler.target.brackets t)
    (h : filler.Touches call t u first last) : u.HasPart first last := by
  have hcomma : ∀ {rule offset}, filler.Places call t rule offset →
      ∃ front back : Text, t = front ++ back ∧ offset = front.size := by
    rintro rule offset ⟨now, hrule, -, hslot⟩
    obtain ⟨front, back, rfl, rfl⟩ :=
      exists_comma_of_slot (isName_of_refusal? haccepted hrule).2 hslot
    refine ⟨front ++ [','], back, by simp, ?_⟩
    rw [Text.size_append]
    rfl
  cases h with
  | measured h => exact Measures.hasPart hone hstands h
  | searched hrule hnow hargs h => exact h.hasPart (isName_of_refusal? haccepted hrule).2
  | upToSlot h =>
    obtain ⟨front, back, rfl, rfl⟩ := hcomma h
    exact Text.hasPart_upTo front back
  | behindSlot h =>
    obtain ⟨front, back, rfl, rfl⟩ := hcomma h
    exact Text.hasPart_from front back
  | line h hcut =>
    obtain ⟨rfl, -⟩ := Text.cut?_eq_some_iff.1 hcut
    exact Text.hasPart_lastLine _ _
  | indent => exact Text.hasPart_takeWhile isGap _
  | grown h hindent hinsert hread =>
    refine Measures.hasPart hone ?_ hread
    exact (hstands.kept.insert (Nat.le_of_lt (h.argsStart_lt haccepted)) hinsert).stands

end

/-! ## Runs -/

/-- The calls still to be filled, the last of them first. Each stands where it stood in the text `t`,
behind the same text. -/
structure Waiting (filler : Filler) (t : Text) (s : State) : Prop where
  order : s.calls.Pairwise fun call before => before.argsStart < call.argsStart
  kept : ∀ call ∈ s.calls, call.Kept filler.target.brackets t s.progress.text

theorem Waiting.argsStart_lt (haccepted : filler.refusal? = none) {s : State}
    (h : filler.Waiting t s) {first : Call} {rest : List Call} (hcalls : s.calls = first :: rest)
    {rule : Rule} {offset : Nat} (hplaces : filler.Places first s.progress.text rule offset) :
    ∀ call ∈ s.calls, call.argsStart < offset := by
  intro call hcall
  have hlt := hplaces.argsStart_lt haccepted
  have horder := h.order
  rw [hcalls] at hcall horder
  rcases List.mem_cons.1 hcall with rfl | hcall
  · exact hlt
  · exact Nat.lt_trans ((List.pairwise_cons.1 horder).1 call hcall) hlt

theorem Waiting.step (haccepted : filler.refusal? = none) {s s' : State} (h : filler.Waiting t s)
    (hstep : filler.Step budget s s') : filler.Waiting t s' := by
  cases hstep with
  | @settled call calls out left p hturn =>
    exact ⟨(List.pairwise_cons.1 h.order).2, fun c hc => h.kept c (List.mem_cons_of_mem call hc)⟩
  | leftOut hturn =>
    obtain rfl := eq_leave_of_turn hturn
    exact ⟨h.order, h.kept⟩
  | @added call calls out left p next hturn =>
    cases adds_of_turn hturn with
    | put hrule _ hnow _ hslot _ hinsert =>
      have hlt := h.argsStart_lt haccepted rfl ⟨_, hrule, hnow, hslot⟩
      exact ⟨h.order, fun c hc => (h.kept c hc).insert (Nat.le_of_lt (hlt c hc)) hinsert⟩

/-- The calls still to be filled stay where they are. -/
theorem Run.waiting (haccepted : filler.refusal? = none) {calls : List Call}
    (hlocate : filler.target.locate t = .ok calls) {s : State}
    (hrun : filler.Run budget ⟨calls.reverse, [], budget, ⟨t, [], []⟩⟩ s) : filler.Waiting t s := by
  have hname := isQualifiedName_of_refusal? haccepted
  induction hrun with
  | refl =>
    refine ⟨Target.pairwise_reverse_locate hname hlocate, fun call hcall => ?_⟩
    have hmem := List.mem_reverse.1 hcall
    obtain ⟨args, hargs⟩ := Target.exists_hasArgs_of_mem_locate hlocate hmem
    exact hargs.stands.kept
  | tail _ hstep ih => exact ih.step haccepted hstep

/-- What the next turn of a run touches are parts. -/
theorem Run.hasPart (haccepted : filler.refusal? = none)
    (hone : filler.target.brackets.opening.utf8Size = 1) {calls rest : List Call}
    (hlocate : filler.target.locate t = .ok calls) {out : List Rule} {left : Nat} {p : Progress}
    (hrun : filler.Run budget ⟨calls.reverse, [], budget, ⟨t, [], []⟩⟩ ⟨call :: rest, out, left, p⟩)
    {u : Text} {first last : Nat} (htouch : filler.Touches call p.text u first last) :
    u.HasPart first last := by
  have hstands := ((Run.waiting haccepted hlocate hrun).kept call List.mem_cons_self).stands
  exact Touches.hasPart hone haccepted hstands htouch

theorem apply_ne_badOffset (haccepted : filler.refusal? = none)
    (hone : filler.target.brackets.opening.utf8Size = 1) (budget : Nat) (t : Text) :
    filler.apply budget t ≠ .error .badOffset := by
  intro hbad
  rcases apply_stops hbad with hlocate | ⟨calls, s, hlocate, hrun, hstops⟩
  · obtain ⟨offset, hunclosed⟩ := Target.eq_unclosed_of_locate hlocate
    cases hunclosed
  · cases hstops with
    | failed hturn =>
      obtain ⟨u, first, last, htouch, hpart⟩ := exists_touches_of_turn hturn
      exact hpart (Run.hasPart haccepted hone hlocate hrun htouch)

/-- **No offset misses a character.** What is read in locating the calls of a text are parts of it,
and so is, at every moment of a run, whatever the next turn touches in the text as it is then; the
byte before an argument list is there. So filling does not fail by an offset, whatever the text, the
keys and the literals. -/
theorem apply_in_bounds (haccepted : filler.refusal? = none)
    (hone : filler.target.brackets.opening.utf8Size = 1) (budget : Nat) (t : Text) :
    (∀ first last, filler.target.Reads t first last → t.HasPart first last) ∧
    (∀ calls call rest out left p, filler.target.locate t = .ok calls →
      filler.Run budget ⟨calls.reverse, [], budget, ⟨t, [], []⟩⟩ ⟨call :: rest, out, left, p⟩ →
      0 < call.argsStart ∧
        ∀ u first last, filler.Touches call p.text u first last → u.HasPart first last) ∧
    filler.apply budget t ≠ .error .badOffset := by
  refine ⟨fun first last hread => hread.hasPart, ?_, apply_ne_badOffset haccepted hone budget t⟩
  intro calls call rest out left p hlocate hrun
  obtain ⟨front, -, -, -, -, hstart⟩ :=
    (Run.waiting haccepted hlocate hrun).kept call List.mem_cons_self
  refine ⟨by omega, fun u first last htouch => ?_⟩
  exact Run.hasPart haccepted hone hlocate hrun htouch

/-- Two nested calls in a text with characters of several bytes. The first literal closes the inner
list, and the second argument is put in before it. -/
theorem apply_in_bounds_sample :
    let filler : Filler := ⟨⟨['P'], .round⟩,
      [⟨"clé".toList, ['a'], "«)".toList⟩, ⟨['b'], ['a'], "½".toList⟩], .matchAnchor⟩
    let t : Text := "é P(a: P(\n\ta: 'ß',),))".toList
    let filled : Text := "é P(a: P(\n\ta: 'ß',\n\tb: ½,\n\tclé: «),),))".toList
    filler.refusal? = none ∧ filler.target.brackets.opening.utf8Size = 1 ∧
    (∃ report, filler.apply 9 t = .ok (filled, report)) ∧
    (∀ first last, filler.target.Reads t first last → t.HasPart first last) ∧
    (∀ calls call rest out left p, filler.target.locate t = .ok calls →
      filler.Run 9 ⟨calls.reverse, [], 9, ⟨t, [], []⟩⟩ ⟨call :: rest, out, left, p⟩ →
      0 < call.argsStart ∧
        ∀ u first last, filler.Touches call p.text u first last → u.HasPart first last) ∧
    filler.apply 9 t ≠ .error .badOffset := by
  intro filler t filled
  have haccepted : filler.refusal? = none := by decide +kernel
  exact ⟨haccepted, rfl, ⟨_, rfl⟩, apply_in_bounds haccepted rfl 9 t⟩

end Filler

namespace RuleBook

theorem applyFrom_ne_badOffset {fillers : List Filler} (h : ∀ filler ∈ fillers,
    filler.refusal? = none ∧ filler.target.brackets.opening.utf8Size = 1) (budget : Nat) (t : Text)
    (report : Report) : applyFrom budget fillers t report ≠ .error .badOffset := by
  induction fillers generalizing t report with
  | nil => exact nofun
  | cons filler rest ih =>
    obtain ⟨haccepted, hone⟩ := h filler List.mem_cons_self
    cases hpass : filler.apply budget t with
    | ok result =>
      rw [applyFrom_cons hpass]
      exact ih (fun f hf => h f (List.mem_cons_of_mem filler hf)) _ _
    | error fault =>
      intro hbad
      rw [applyFrom, List.foldlM_cons] at hbad
      simp only [hpass] at hbad
      obtain rfl := Except.error.inj hbad
      exact Filler.apply_ne_badOffset haccepted hone budget t hpass

theorem apply_ne_badOffset {profiles : List Profile} {book : RuleBook}
    (hbook : ofProfiles profiles = .ok book)
    (hone : ∀ filler ∈ book.fillers, filler.target.brackets.opening.utf8Size = 1) (budget : Nat)
    (t : Text) : book.apply budget t ≠ .error .badOffset :=
  applyFrom_ne_badOffset
    (fun filler hfiller => ⟨refusal?_eq_none_of_mem hbook hfiller, hone filler hfiller⟩) budget t _

end RuleBook

end ArgFill
