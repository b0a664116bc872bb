import ArgFill.Proofs.Locate
import ArgFill.Proofs.Presence
import Mathlib.Data.List.Basic

/-!
# Text put in behind a comma

Filling puts text in behind a comma, and the text ends with a comma of its own. Let it be inert for
a target: its brackets pair up and no call is located in it (`Target.Inert`). Then

* `locate_insert` : the same calls are located, moved;
* `Call.HasArgs.insert_inert` : each of them has its old argument list, or that list with the text
  in it;
* `inert_argument` : what a rule adds is inert if the rule's literal is.
-/

namespace ArgFill

/-- A character that nothing in a key or between two arguments can be taken for. -/
def standsOut (c : Char) : Bool := !isNameChar c && !isBlankChar c && c != ':' && c != ','

/-- Brackets that filling can tell from everything it adds around a literal. -/
structure Brackets.StandOut (b : Brackets) : Prop where
  differ : b.opening ≠ b.closing
  oneByte : b.opening.utf8Size = 1
  opening : standsOut b.opening = true
  closing : standsOut b.closing = true

def Call.moved (slot added : Nat) (call : Call) : Call :=
  ⟨movedBy slot added call.start, movedBy slot added call.argsStart, movedBy slot added call.argsEnd⟩

def Fault.movedIn (slot added : Nat) : Except Fault Call → Except Fault Call
  | .ok call => .ok (call.moved slot added)
  | .error (.unclosed construct offset) => .error (.unclosed construct (movedBy slot added offset))
  | .error fault => .error fault

/-- A text that changes nothing for a target where it is put in: its brackets pair up, and no call
is located in it. -/
structure Target.Inert (target : Target) (t : Text) : Prop where
  balanced : target.brackets.depth? 0 t = some 0
  callFree : target.locate t = .ok []

theorem standsOut_iff {c : Char} : standsOut c = true ↔
    isNameChar c = false ∧ isBlankChar c = false ∧ c ≠ ':' ∧ c ≠ ',' := by
  simp [standsOut, and_assoc]

theorem Brackets.standOut_round : Brackets.round.StandOut :=
  ⟨by decide, by decide, by decide +kernel, by decide +kernel⟩

/-! ## The end of an argument list -/

namespace Brackets

variable {b : Brackets}

theorem depth?_insert {added : Text} (h : b.depth? 0 added = some 0) (d : Nat) (x y : Text) :
    b.depth? d (x ++ (added ++ y)) = b.depth? d (x ++ y) := by
  rw [depth?_append, depth?_append d x y]
  congr 1
  funext e
  have := depth?_add h e
  rw [Nat.zero_add] at this
  rw [depth?_append, this]
  rfl

theorem depth?_insert_of_eq_some {added x y : Text} {d e k : Nat} (hk : b.depth? 0 added = some k)
    (h : b.depth? d (x ++ y) = some e) : b.depth? d (x ++ (added ++ y)) = some (e + k) := by
  rw [depth?_append] at h
  obtain ⟨m, hm, hy⟩ := Option.bind_eq_some_iff.1 h
  have hadded := depth?_add hk m
  rw [Nat.zero_add, Nat.add_comm] at hadded
  rw [depth?_append, hm, Option.bind_some, depth?_append, hadded]
  exact depth?_add hy k

theorem depth?_append_of_forall_ne {x y : Text} (hx : ∀ c ∈ x, c ≠ b.opening ∧ c ≠ b.closing)
    {d : Nat} : b.depth? d (x ++ y) = b.depth? d y := by
  rw [depth?_append, depth?_of_forall_ne hx]
  rfl

theorem StandOut.comma_ne (hb : b.StandOut) : ',' ≠ b.opening ∧ ',' ≠ b.closing :=
  ⟨(standsOut_iff.1 hb.opening).2.2.2.symm, (standsOut_iff.1 hb.closing).2.2.2.symm⟩

theorem StandOut.depth?_append_comma (hb : b.StandOut) {body : Text} (h : b.depth? 0 body = some 0) :
    b.depth? 0 (body ++ [',']) = some 0 := by
  rw [depth?_append, h]
  exact depth?_cons_of_ne hb.comma_ne.1 hb.comma_ne.2 0 []

theorem StandOut.depth?_insert_comma (hb : b.StandOut) {body : Text} (h : b.depth? 0 body = some 0)
    (d : Nat) (x y : Text) : b.depth? d (x ++ ',' :: (body ++ ',' :: y)) = b.depth? d (x ++ ',' :: y) := by
  have hbody := depth?_insert (hb.depth?_append_comma h) d (x ++ [',']) y
  simpa only [List.append_assoc, List.cons_append, List.nil_append] using hbody

end Brackets

/-! ## The argument lists -/

@[simp] theorem Call.moved_argsStart (slot added : Nat) (call : Call) :
    (call.moved slot added).argsStart = movedBy slot added call.argsStart := rfl

@[simp] theorem Call.moved_argsEnd (slot added : Nat) (call : Call) :
    (call.moved slot added).argsEnd = movedBy slot added call.argsEnd := rfl

/-- Each call keeps its argument list, or has the added text in it. -/
theorem Call.HasArgs.insert {b : Brackets} (ho : ',' ≠ b.opening) (hc : ',' ≠ b.closing)
    {added front back args : Text} (hadded : b.depth? 0 added = some 0) {call : Call}
    (h : call.HasArgs b (front ++ ',' :: back) args) :
    ∃ args', (call.moved (front.size + 1) added.size).HasArgs b
        (front ++ ',' :: (added ++ back)) args' ∧
      (args' = args ∧ (front.size + 1 ≤ call.argsStart ∨ call.argsEnd < front.size + 1) ∨
        ∃ x y, args = x ++ ',' :: y ∧ args' = x ++ ',' :: (added ++ y) ∧
          front.size = call.argsStart + Text.size x) := by
  obtain ⟨before, behind, ht, hstart, hend, hdepth⟩ := h
  have hcomma : ','.utf8Size = 1 := rfl
  have hopen := b.opening.utf8Size_pos
  rcases Text.append_cons_eq_append_cons ho ht with ⟨mid, rfl, rfl⟩ | ⟨mid, rfl, hmid⟩
  · -- the comma stands before the list
    simp only [Text.size_append, Text.size_cons] at hstart
    have hs : movedBy (front.size + 1) added.size call.argsStart = call.argsStart + added.size :=
      movedBy_of_le (by omega)
    have he : movedBy (front.size + 1) added.size call.argsEnd = call.argsEnd + added.size :=
      movedBy_of_le (by omega)
    refine ⟨args, ⟨front ++ ',' :: (added ++ mid), behind, by simp, ?_, ?_, hdepth⟩,
      Or.inl ⟨rfl, Or.inl (by omega)⟩⟩
    · rw [moved_argsStart, hs]
      simp only [Text.size_append, Text.size_cons]
      omega
    · rw [moved_argsStart, moved_argsEnd, hs, he]
      omega
  · have hs : movedBy ((before ++ b.opening :: mid).size + 1) added.size call.argsStart =
        call.argsStart := by
      refine movedBy_of_lt ?_
      simp only [Text.size_append, Text.size_cons]
      omega
    rcases Text.append_cons_eq_append_cons hc hmid.symm with ⟨y, rfl, rfl⟩ | ⟨late, rfl, rfl⟩
    · -- the comma stands in the list
      have hsize : (before ++ b.opening :: mid).size = call.argsStart + Text.size mid := by
        simp only [Text.size_append, Text.size_cons]
        omega
      have he : movedBy ((before ++ b.opening :: mid).size + 1) added.size call.argsEnd =
          call.argsEnd + added.size := by
        refine movedBy_of_le ?_
        rw [hend, hsize]
        simp only [Text.size_append, Text.size_cons]
        omega
      refine ⟨mid ++ ',' :: (added ++ y), ⟨before, behind, by simp, ?_, ?_, ?_⟩,
        Or.inr ⟨mid, y, rfl, rfl, hsize⟩⟩
      · rw [moved_argsStart, hs, hstart]
      · rw [moved_argsStart, moved_argsEnd, hs, he, hend]
        simp only [Text.size_append, Text.size_cons]
        omega
      · have := Brackets.depth?_insert hadded 0 (mid ++ [',']) y
        rw [List.append_assoc, List.append_assoc] at this
        exact this.trans hdepth
    · -- the comma stands behind the list
      have hlt : call.argsEnd < (before ++ b.opening :: (args ++ b.closing :: late)).size + 1 := by
        simp only [Text.size_append, Text.size_cons]
        omega
      refine ⟨args, ⟨before, late ++ ',' :: (added ++ back), by simp, ?_, ?_, hdepth⟩,
        Or.inl ⟨rfl, Or.inr hlt⟩⟩
      · rw [moved_argsStart, hs, hstart]
      · rw [moved_argsStart, moved_argsEnd, hs, movedBy_of_lt hlt, hend]

theorem Target.Inert.append_comma {target : Target} (hb : target.brackets.StandOut) {body : Text}
    (h : target.Inert body) : target.brackets.depth? 0 (body ++ [',']) = some 0 :=
  hb.depth?_append_comma h.balanced

theorem Call.HasArgs.insert_inert {target : Target} (hb : target.brackets.StandOut)
    {body front back args : Text} (hbody : target.Inert body) {call : Call}
    (h : call.HasArgs target.brackets (front ++ ',' :: back) args) :
    ∃ args', (call.moved (front.size + 1) (body ++ [',']).size).HasArgs target.brackets
        (front ++ ',' :: (body ++ ',' :: back)) args' ∧
      (args' = args ∧ (front.size + 1 ≤ call.argsStart ∨ call.argsEnd < front.size + 1) ∨
        ∃ x y, args = x ++ ',' :: y ∧ args' = x ++ ',' :: (body ++ ',' :: y) ∧
          front.size = call.argsStart + Text.size x) := by
  have hinsert := h.insert hb.comma_ne.1 hb.comma_ne.2 (hbody.append_comma hb)
  simpa only [List.append_assoc, List.cons_append, List.nil_append] using hinsert

/-- In the list of the call it is meant for, the text stands where it was put in. -/
theorem Call.HasArgs.insert_at {target : Target} (hb : target.brackets.StandOut)
    {body front back x y : Text} (hbody : target.Inert body) {call : Call}
    (h : call.HasArgs target.brackets (front ++ ',' :: back) (x ++ ',' :: y))
    (hsize : front.size = call.argsStart + x.size) :
    (call.moved (front.size + 1) (body ++ [',']).size).HasArgs target.brackets
      (front ++ ',' :: (body ++ ',' :: back)) (x ++ ',' :: (body ++ ',' :: y)) := by
  have hend := h.argsEnd_eq
  obtain ⟨args', hargs', ⟨rfl, hout⟩ | ⟨x', y', heq, rfl, hsize'⟩⟩ := h.insert_inert hb hbody
  · have : ','.utf8Size = 1 := rfl
    simp only [Text.size_append, Text.size_cons] at hend
    omega
  · obtain ⟨rfl, hrest⟩ := Text.append_inj_of_size_eq heq (by omega)
    obtain rfl := (List.cons.inj hrest).2
    exact hargs'

/-! ## What is located -/

namespace Target

variable {target : Target}

/-- A character that is neither white space nor the opening bracket parts what can be a call from what
cannot: the white space behind a name does not go on across it. -/
theorem opensAt_extend_cons {s : Char} (hblank : isBlankChar s = false)
    (ho : s ≠ target.brackets.opening) (o : Occurrence) (t : Text) :
    target.opensAt (o.extend (s :: t)) = target.opensAt o := by
  rw [opensAt, opensAt, Occurrence.extend, Text.dropWhile_append_cons hblank]
  cases o.after.dropWhile isBlankChar with
  | nil => simp [ho]
  | cons c rest => rfl

/-- A balanced text behind a comma behind the opening bracket moves the end of the call at most. -/
theorem callOrFault_insert (hne : target.brackets.opening ≠ target.brackets.closing) {added : Text}
    (hadded : target.brackets.depth? 0 added = some 0) {start opened : Nat} (hstart : start ≤ opened)
    {x : Text} (hx : 0 < x.size) (y : Text) :
    target.callOrFault start opened (x ++ (added ++ y)) =
      Fault.movedIn (opened + target.brackets.opening.utf8Size + x.size) added.size
        (target.callOrFault start opened (x ++ y)) := by
  have hpos := target.brackets.opening.utf8Size_pos
  have hend := Brackets.closingFrom?_insert (b := target.brackets) (d := 0)
    (o := opened + target.brackets.opening.utf8Size) (x := x) (y := y) hne hadded
  rw [List.append_assoc] at hend
  rw [callOrFault, callOrFault, Brackets.closing?, Brackets.closing?, hend]
  cases target.brackets.closingFrom? 0 (opened + target.brackets.opening.utf8Size) (x ++ y) with
  | none =>
    simp only [Option.map_none, Fault.movedIn]
    rw [movedBy_of_lt (by omega)]
  | some e =>
    simp only [Option.map_some, Fault.movedIn, Call.moved]
    rw [movedBy_of_lt (show start < _ by omega), movedBy_of_lt (Nat.lt_add_of_pos_right hx)]

theorem callOrFault_shift {slot start opened : Nat} (hslot : slot ≤ start) (hstart : start ≤ opened)
    (n : Nat) (rest : Text) :
    target.callOrFault (start + n) (opened + n) rest =
      Fault.movedIn slot n (target.callOrFault start opened rest) := by
  rw [callOrFault, callOrFault, Brackets.closing?, Brackets.closing?, Nat.add_right_comm opened n,
    Brackets.closingFrom?_offset]
  cases hend : target.brackets.closingFrom? 0 (opened + target.brackets.opening.utf8Size) rest with
  | none =>
    simp only [Option.map_none, Fault.movedIn]
    rw [movedBy_of_le (by omega)]
  | some e =>
    have hle := (Brackets.closingFrom?_append_of_eq_some hend []).1
    have hopened : slot ≤ opened + target.brackets.opening.utf8Size := by omega
    have hslote : slot ≤ e := by omega
    simp only [Option.map_some, Fault.movedIn, Call.moved, movedBy_of_le hslot,
      movedBy_of_le hopened, movedBy_of_le hslote]

theorem callAt?_shift {slot : Nat} {o : Occurrence} (h : slot ≤ o.offset) (n : Nat) :
    target.callAt? (o.shift n) = (target.callAt? o).map (Fault.movedIn slot n) := by
  cases ho : target.opensAt o with
  | false =>
    have hs : target.opensAt (o.shift n) = false := ho
    rw [callAt?_of_opensAt_eq_false ho, callAt?_of_opensAt_eq_false hs]
    rfl
  | true =>
    obtain ⟨hbefore, hopen, blanks, rest, hafter, hblanks⟩ := exists_of_opensAt ho
    rw [callAt?_eq (o := o.shift n) hbefore hopen hblanks hafter,
      callAt?_eq hbefore hopen hblanks hafter, Option.map_some,
      ← callOrFault_shift h (by omega) n rest]
    simp only [Occurrence.shift]
    rw [show o.offset + n + target.construct.size + blanks.size =
      o.offset + target.construct.size + blanks.size + n by omega]

theorem filterMap_callAt?_shift {slot : Nat} {os : List Occurrence} (h : ∀ o ∈ os, slot ≤ o.offset)
    (n : Nat) : (os.map (Occurrence.shift n)).filterMap target.callAt? =
      (os.filterMap target.callAt?).map (Fault.movedIn slot n) := by
  rw [List.filterMap_map, List.map_filterMap]
  exact List.filterMap_congr fun o ho => callAt?_shift (h o ho) n

theorem callAt?_insert (hb : target.brackets.StandOut) {added : Text}
    (hadded : target.brackets.depth? 0 added = some 0) (o : Occurrence) (back : Text) :
    target.callAt? (o.extend (',' :: (added ++ back))) =
      (target.callAt? (o.extend (',' :: back))).map
        (Fault.movedIn (o.offset + target.construct.size + o.after.size + 1) added.size) := by
  have hcomma : ',' ≠ target.brackets.opening := hb.comma_ne.1
  cases ho : target.opensAt o with
  | false =>
    rw [callAt?_of_opensAt_eq_false ((opensAt_extend_cons (by decide) hcomma _ _).trans ho),
      callAt?_of_opensAt_eq_false ((opensAt_extend_cons (by decide) hcomma _ _).trans ho)]
    rfl
  | true =>
    obtain ⟨hbefore, hopen, blanks, rest, hafter, hblanks⟩ := exists_of_opensAt ho
    have hext : ∀ t, (o.extend t).after = blanks ++ target.brackets.opening :: (rest ++ t) := by
      intro t
      simp [Occurrence.extend, hafter]
    have hslot : o.offset + target.construct.size + o.after.size + 1 =
        o.offset + target.construct.size + blanks.size + target.brackets.opening.utf8Size +
          Text.size (rest ++ [',']) := by
      have : ','.utf8Size = 1 := rfl
      simp only [hafter, Text.size_append, Text.size_cons, Text.size_nil]
      omega
    have hle : o.offset ≤ o.offset + target.construct.size + blanks.size := by omega
    have hpos : 0 < Text.size (rest ++ [',']) := by
      have : 0 < ','.utf8Size := Char.utf8Size_pos ','
      simp only [Text.size_append, Text.size_cons]
      omega
    have hrest := callOrFault_insert hb.differ hadded hle hpos back
    simp only [List.append_assoc, List.cons_append, List.nil_append] at hrest
    rw [callAt?_eq (o := o.extend _) hbefore hopen hblanks (hext _),
      callAt?_eq (o := o.extend (',' :: back)) hbefore hopen hblanks (hext _), Option.map_some, hslot]
    exact congrArg some hrest

/-- Nothing is located in a text exactly if no occurrence of the name opens a list. -/
theorem locate_eq_ok_nil_iff (hname : target.construct ≠ []) {t : Text} :
    target.locate t = .ok [] ↔
      ∀ o ∈ Text.occurrencesFrom target.construct 0 none 0 t, target.opensAt o = false := by
  rw [locate_eq_ok_iff, found_eq hname, List.map_nil, List.filterMap_eq_nil_iff]
  refine forall₂_congr fun o _ => ⟨fun h => ?_, callAt?_of_opensAt_eq_false⟩
  cases ho : target.opensAt o with
  | false => rfl
  | true =>
    obtain ⟨hbefore, hopen, blanks, rest, hafter, hblanks⟩ := exists_of_opensAt ho
    rw [callAt?_eq hbefore hopen hblanks hafter] at h
    cases h

theorem opensAt_eq_false_of_locate (hname : target.construct ≠ []) {t : Text}
    (h : target.locate t = .ok []) {b : Option Char} (hb : endsWord b = true) {n : Nat}
    {o : Occurrence} (ho : o ∈ Text.occurrencesFrom target.construct 0 b n t) :
    target.opensAt o = false := by
  have hnone : endsWord b = endsWord none := hb
  have hmem := List.mem_map_of_mem (f := Occurrence.view) ho
  rw [Text.map_view_occurrencesFrom hnone target.construct 0 n 0 t, List.mem_map] at hmem
  obtain ⟨p, hp, hview⟩ := hmem
  rw [opensAt_eq_view, ← hview, ← opensAt_eq_view]
  exact (locate_eq_ok_nil_iff hname).1 h p hp

theorem found_insert (hname : target.construct.isQualifiedName = true)
    (hb : target.brackets.StandOut) {body : Text} (hbody : target.Inert body) (front back : Text) :
    target.found (front ++ ',' :: (body ++ ',' :: back)) =
      (target.found (front ++ ',' :: back)).map
        (Fault.movedIn (front.size + 1) (body ++ [',']).size) := by
  have hw := Text.ne_nil_of_isQualifiedName hname
  have hcomma : ',' ∉ target.construct :=
    Text.not_mem_of_isQualifiedName hname isNameChar_comma (by decide)
  obtain ⟨-, -, -, hopen⟩ := standsOut_iff.1 hb.opening
  obtain ⟨-, -, -, hclose⟩ := standsOut_iff.1 hb.closing
  have hadded := hbody.append_comma hb
  have hsize : ','.utf8Size = 1 := rfl
  have hleft : ((Text.occurrencesFrom target.construct 0 none 0 front).map
        (·.extend (',' :: (body ++ ',' :: back)))).filterMap target.callAt? =
      (((Text.occurrencesFrom target.construct 0 none 0 front).map
        (·.extend (',' :: back))).filterMap target.callAt?).map
          (Fault.movedIn (front.size + 1) (body ++ [',']).size) := by
    rw [List.filterMap_map, List.filterMap_map, List.map_filterMap]
    refine List.filterMap_congr fun o ho => ?_
    obtain ⟨pre, hfront, hoffset, -⟩ := Text.mem_occurrencesFrom ho
    have hslot : front.size + 1 = o.offset + target.construct.size + o.after.size + 1 := by
      rw [hfront, hoffset, Text.size_append, Text.size_append]
      omega
    have := callAt?_insert hb hadded o back
    rw [List.append_assoc, List.cons_append, List.nil_append] at this
    rw [Function.comp, Function.comp, this, hslot]
  have hmid : ((Text.occurrencesFrom target.construct 0 (some ',') (0 + front.size + ','.utf8Size)
      body).map (·.extend (',' :: back))).filterMap target.callAt? = [] := by
    rw [List.filterMap_map, List.filterMap_eq_nil_iff]
    intro o ho
    refine callAt?_of_opensAt_eq_false ((opensAt_extend_cons (by decide) hopen.symm o back).trans ?_)
    exact opensAt_eq_false_of_locate hw hbody.callFree rfl ho
  have hright : (Text.occurrencesFrom target.construct 0 (some ',')
        (0 + front.size + ','.utf8Size + body.size + ','.utf8Size) back).filterMap target.callAt? =
      ((Text.occurrencesFrom target.construct 0 (some ',') (0 + front.size + ','.utf8Size)
        back).filterMap target.callAt?).map (Fault.movedIn (front.size + 1) (body ++ [',']).size) := by
    rw [show 0 + front.size + ','.utf8Size + body.size + ','.utf8Size =
        0 + front.size + ','.utf8Size + (body ++ [',']).size by
      rw [Text.size_append, Text.size_cons, Text.size_nil]; omega,
      Text.occurrencesFrom_offset, filterMap_callAt?_shift]
    intro o ho
    obtain ⟨pre, -, hoffset, -⟩ := Text.mem_occurrencesFrom ho
    omega
  rw [found_eq hw, found_eq hw, Text.occurrencesFrom_append_cons hcomma hw (Nat.zero_le _),
    Text.occurrencesFrom_append_cons hcomma hw (Nat.zero_le _),
    Text.occurrencesFrom_append_cons hcomma hw (Nat.zero_le _), List.filterMap_append,
    List.filterMap_append, List.filterMap_append, List.map_append, hleft, hmid, hright,
    List.nil_append]

/-- Inert text behind a comma moves the calls, and changes nothing else about them. -/
theorem locate_insert (hname : target.construct.isQualifiedName = true)
    (hb : target.brackets.StandOut) {body : Text} (hbody : target.Inert body) {front back : Text}
    {calls : List Call} (h : target.locate (front ++ ',' :: back) = .ok calls) :
    target.locate (front ++ ',' :: (body ++ ',' :: back)) =
      .ok (calls.map (Call.moved (front.size + 1) (body ++ [',']).size)) := by
  rw [locate_eq_ok_iff] at h ⊢
  rw [found_insert hname hb hbody, h, List.map_map, List.map_map]
  rfl

/-! ## What a rule adds -/

theorem locate_cons_of_not_mem (hname : target.construct ≠ []) {c : Char}
    (hc : c ∉ target.construct) (hword : isWordChar c = false) {t : Text}
    (h : target.locate t = .ok []) : target.locate (c :: t) = .ok [] := by
  rw [locate_eq_ok_nil_iff hname]
  intro o ho
  rw [← List.nil_append (c :: t),
    Text.occurrencesFrom_append_cons hc hname (Nat.zero_le _), Text.occurrencesFrom_nil] at ho
  exact opensAt_eq_false_of_locate hname h (by simp [endsWord, hword]) ho

theorem locate_append_of_forall_not_mem (hname : target.construct ≠ []) {x t : Text}
    (hx : ∀ c ∈ x, c ∉ target.construct ∧ isWordChar c = false) (h : target.locate t = .ok []) :
    target.locate (x ++ t) = .ok [] := by
  induction x with
  | nil => exact h
  | cons c x ih =>
    have hc := hx c (by simp)
    exact locate_cons_of_not_mem hname hc.1 hc.2 (ih fun d hd => hx d (by simp [hd]))

theorem locate_append_colon (hname : target.construct ≠ []) (hcolon : ':' ∉ target.construct)
    (ho : ':' ≠ target.brackets.opening) {x y : Text} (hx : target.brackets.opening ∉ x)
    (hy : target.locate y = .ok []) : target.locate (x ++ ':' :: y) = .ok [] := by
  rw [locate_eq_ok_nil_iff hname]
  intro o hmem
  rw [Text.occurrencesFrom_append_cons hcolon hname (Nat.zero_le _), List.mem_append] at hmem
  rcases hmem with hmem | hmem
  · obtain ⟨p, hp, rfl⟩ := List.mem_map.1 hmem
    obtain ⟨pre, rfl, -, -⟩ := Text.mem_occurrencesFrom hp
    cases hopens : target.opensAt (p.extend (':' :: y)) with
    | false => rfl
    | true =>
      obtain ⟨-, -, blanks, rest, hafter, hblanks⟩ := exists_of_opensAt hopens
      rcases Text.append_cons_eq_append_cons ho hafter with ⟨mid, rfl, -⟩ | ⟨mid, hp', -⟩
      · have := hblanks ':' (by simp)
        revert this
        decide
      · exact absurd (by rw [hp']; simp) hx
  · exact opensAt_eq_false_of_locate hname hy rfl hmem

end Target

/-- What a rule adds, up to the comma at its end. -/
def Rule.argument (rule : Rule) (indent : Text) : Text :=
  '\n' :: (indent ++ (rule.key ++ ':' :: ' ' :: rule.literal))

theorem Rule.insertion_eq (rule : Rule) (indent : Text) :
    rule.insertion indent = rule.argument indent ++ [','] := by
  simp [insertion, argument]

theorem isBlankChar_of_isGap {c : Char} (h : isGap c = true) : isBlankChar c = true := by
  rw [isGap, Bool.or_eq_true, beq_iff_eq, beq_iff_eq] at h
  rcases h with rfl | rfl <;> decide

theorem not_isBlankChar_of_mem {t : Text} (h : t.isQualifiedName = true) {c : Char}
    (hc : isBlankChar c = true) : c ∉ t := fun hmem => by
  rw [Text.isBlankChar_eq_false_of_mem h hmem] at hc
  cases hc

theorem Text.hasKey_line {key gaps : Text} (hkey : key.isName = true)
    (hgaps : ∀ c ∈ gaps, isGap c = true) (x z : Text) :
    (x ++ '\n' :: (gaps ++ (key ++ ':' :: z))).hasKey key = true := by
  rw [hasKey_append_lineFeed hkey, hasKey_gaps_append hkey hgaps, hasKey_self (ne_nil_of_isName hkey),
    Bool.or_true]

/-- What a rule adds is found wherever it is put in behind a comma. -/
theorem hasKey_argument {rule : Rule} (hkey : rule.key.isName = true) {indent : Text}
    (hindent : ∀ c ∈ indent, isGap c = true) (x y : Text) :
    (x ++ ',' :: (rule.argument indent ++ ',' :: y)).hasKey rule.key = true := by
  have hline := Text.hasKey_line hkey hindent (x ++ [',']) (' ' :: (rule.literal ++ ',' :: y))
  have hsplit : x ++ ',' :: (rule.argument indent ++ ',' :: y) = (x ++ [',']) ++ '\n' ::
      (indent ++ (rule.key ++ ':' :: ' ' :: (rule.literal ++ ',' :: y))) := by simp [Rule.argument]
  rw [hsplit]
  exact hline

theorem depth?_argument {b : Brackets} (hb : b.StandOut) {rule : Rule} (hkey : rule.key.isName = true)
    {indent : Text} (hindent : ∀ c ∈ indent, isGap c = true) :
    b.depth? 0 (rule.argument indent) = b.depth? 0 rule.literal := by
  obtain ⟨hopen, hblank, hcolon, -⟩ := standsOut_iff.1 hb.opening
  obtain ⟨hclose, hblank', hcolon', -⟩ := standsOut_iff.1 hb.closing
  -- neither bracket stands in what is put around the literal
  have hne : ∀ c, isNameChar c = true ∨ isBlankChar c = true ∨ c = ':' →
      c ≠ b.opening ∧ c ≠ b.closing := by
    rintro c hc
    constructor <;> rintro rfl <;> simp_all
  have hframe : rule.argument indent =
      ('\n' :: (indent ++ (rule.key ++ [':', ' ']))) ++ rule.literal := by
    simp [Rule.argument]
  rw [hframe, Brackets.depth?_append_of_forall_ne]
  intro c hc
  simp only [List.mem_cons, List.mem_append, List.not_mem_nil, or_false] at hc
  rcases hc with rfl | hc | hc | rfl | rfl
  · exact hne _ (Or.inr (Or.inl (by decide)))
  · exact hne _ (Or.inr (Or.inl (isBlankChar_of_isGap (hindent c hc))))
  · exact hne _ (Or.inl (Text.isNameChar_of_mem hkey hc))
  · exact hne _ (Or.inr (Or.inr rfl))
  · exact hne _ (Or.inr (Or.inl (by decide)))

/-- What a rule adds is inert if its literal is. -/
theorem inert_argument {target : Target} (hname : target.construct.isQualifiedName = true)
    (hb : target.brackets.StandOut) {rule : Rule} (hkey : rule.key.isName = true)
    (hlit : target.Inert rule.literal) {indent : Text} (hindent : ∀ c ∈ indent, isGap c = true) :
    target.Inert (rule.argument indent) := by
  have hw := Text.ne_nil_of_isQualifiedName hname
  obtain ⟨hopen, -, hcolon, -⟩ := standsOut_iff.1 hb.opening
  have hspace : isBlankChar ' ' = true := by decide
  have hline : isBlankChar '\n' = true := by decide
  have hcolonName : ':' ∉ target.construct :=
    Text.not_mem_of_isQualifiedName hname isNameChar_colon (by decide)
  have hliteral := Target.locate_cons_of_not_mem hw (not_isBlankChar_of_mem hname hspace)
    (by decide) hlit.callFree
  have hargument := Target.locate_append_colon hw hcolonName hcolon.symm
    (Text.not_mem_of_isName hkey hopen) hliteral
  refine ⟨(depth?_argument hb hkey hindent).trans hlit.balanced,
    Target.locate_cons_of_not_mem hw (not_isBlankChar_of_mem hname hline) (by decide)
      (Target.locate_append_of_forall_not_mem hw (fun c hc => ?_) hargument)⟩
  have hgap := hindent c hc
  exact ⟨not_isBlankChar_of_mem hname (isBlankChar_of_isGap hgap), isWordChar_eq_false_of_isGap hgap⟩

end ArgFill
