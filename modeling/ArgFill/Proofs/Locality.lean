import ArgFill.Proofs.Run

/-!
# Filling is local

A run over a text also goes through where the text stands in a longer one (`Frame`), with all offsets
moved by what precedes it: an opening bracket finds its partner before it reaches the rest
(`Frame.remeasure_text`), an indentation does not look beyond its line (`Frame.indentation_text`), and
nothing else that a turn reads goes beyond the argument list of its call. So each definition that a
run is made of has a lemma here which carries its success into the frame, up to `Frame.fillCalls_around`.

`apply_append` puts two texts together. The calls of the second are filled first, in a frame that
ends with the first text, and then those of the first, in a frame that begins with the second one as
it is then.
-/

namespace ArgFill

/-! ## Moving by what precedes -/

def Call.shift (n : Nat) (call : Call) : Call :=
  ⟨call.start + n, call.argsStart + n, call.argsEnd + n⟩

def Insertion.shift (n : Nat) (i : Insertion) : Insertion :=
  { i with callStart := i.callStart + n, offset := i.offset + n }

def Skip.shift (n : Nat) (skip : Skip) : Skip := { skip with callStart := skip.callStart + n }

theorem Call.shift_zero : Call.shift 0 = id := rfl

theorem Insertion.shift_zero : Insertion.shift 0 = id := rfl

theorem Skip.shift_zero : Skip.shift 0 = id := rfl

theorem Call.moved_zero (n : Nat) (call : Call) : call.moved 0 n = call.shift n := by
  simp only [Call.moved, Call.shift, movedBy_of_le (Nat.zero_le _)]

/-! ## Frames -/

namespace Filler

/-- What stands around a text in a longer one, and what was done there before. -/
structure Frame where
  front : Text
  back : Text
  insertions : List Insertion
  skips : List Skip

/-- A text keeps its lines and their indentation in the frame. -/
structure Frame.Apart (f : Frame) : Prop where
  front : f.front = [] ∨ ∃ x, f.front = x ++ ['\n']
  back : ∀ c ∈ f.back.head?, isGap c = false

theorem Frame.Apart.lastLine_append {f : Frame} (hf : f.Apart) (x : Text) :
    Text.lastLine (f.front ++ x) = Text.lastLine x := by
  rcases hf.front with hfront | ⟨y, hfront⟩
  · rw [hfront, List.nil_append]
  · rw [hfront, List.append_assoc, List.cons_append, List.nil_append, Text.lastLine_append_lineFeed]

theorem Frame.Apart.takeWhile_append {f : Frame} (hf : f.Apart) (x : Text) :
    (x ++ f.back).takeWhile isGap = x.takeWhile isGap := by
  cases hback : f.back with
  | nil => rw [List.append_nil]
  | cons c back => exact Text.takeWhile_append_cons (hf.back c (by rw [hback]; rfl)) x back

namespace Frame

def text (f : Frame) (t : Text) : Text := f.front ++ (t ++ f.back)

def around (f : Frame) (p : Progress) : Progress :=
  ⟨f.text p.text, f.insertions ++ p.insertions.map (Insertion.shift f.front.size),
    f.skips ++ p.skips.map (Skip.shift f.front.size)⟩

def aroundTurn (f : Frame) : Turn → Turn
  | .settled => .settled
  | .added p => .added (f.around p)
  | .leftOut rule p => .leftOut rule (f.around p)

variable {f : Frame} {t u args : Text} {call now : Call} {offset : Nat}

/-! ## What a turn reads -/

theorem cut?_text {x y : Text} (h : t.cut? offset = some (x, y)) :
    (f.text t).cut? (offset + f.front.size) = some (f.front ++ x, y ++ f.back) := by
  obtain ⟨rfl, rfl⟩ := Text.cut?_eq_some_iff.1 h
  refine Text.cut?_eq_some_iff.2 ⟨by simp [text], ?_⟩
  rw [Text.size_append, Nat.add_comm]

theorem argsOf_text (h : argsOf t call = .ok args) :
    argsOf (f.text t) (call.shift f.front.size) = .ok args := by
  rw [argsOf, Fault.ofPlace_eq_ok_iff, Call.args?, Text.between?_eq_some_iff] at h ⊢
  obtain ⟨x, y, rfl, hstart, hend⟩ := h
  refine ⟨f.front ++ x, y ++ f.back, by simp [text], ?_, ?_⟩
  · simp only [Call.shift, Text.size_append, hstart, Nat.add_comm]
  · rw [List.append_assoc, Text.size_append, hend, Nat.add_comm]
    rfl

theorem isPresent_text {key : Text} {found : Bool} (h : isPresent t call key = .ok found) :
    isPresent (f.text t) (call.shift f.front.size) key = .ok found := by
  rw [isPresent] at h ⊢
  cases hargs : argsOf t call with
  | error fault =>
    rw [hargs] at h
    cases h
  | ok args =>
    rw [hargs] at h
    rw [argsOf_text hargs]
    exact h

theorem missing_text {rules absent : List Rule} (h : missing t call rules = .ok absent) :
    missing (f.text t) (call.shift f.front.size) rules = .ok absent := by
  cases rules with
  | nil => exact h
  | cons rule rules =>
    rw [missing] at h ⊢
    · cases hargs : argsOf t call with
      | error fault =>
        rw [hargs] at h
        cases h
      | ok args =>
        rw [hargs] at h
        rw [argsOf_text hargs]
        exact h
    · exact List.cons_ne_nil rule rules
    · exact List.cons_ne_nil rule rules

theorem slot_text {rule : Rule} (h : slot t call rule ≠ .error .badOffset) :
    slot (f.text t) (call.shift f.front.size) rule = (slot t call rule).map (· + f.front.size) := by
  cases hplace : call.args? t with
  | none =>
    refine absurd ?_ h
    rw [slot, argsOf, hplace]
    rfl
  | some args =>
    have hargs : argsOf t call = .ok args := by
      rw [argsOf, hplace]
      rfl
    rw [slot, slot, hargs, argsOf_text hargs]
    simp only [bind, Except.bind]
    cases args.slot? rule.anchor with
    | none => rfl
    | some place =>
      simp only [pure, Except.pure, Except.map, Call.shift]
      rw [Nat.add_right_comm]

theorem indentation_text {filler : Filler} (hf : f.Apart) {indent : Text}
    (h : filler.indentation t offset = .ok indent) :
    filler.indentation (f.text t) (offset + f.front.size) = .ok indent := by
  unfold indentation at h ⊢
  cases hstyle : filler.indent with
  | none =>
    rw [hstyle] at h
    exact h
  | matchAnchor =>
    simp only [hstyle, indentAt, Fault.ofPlace_eq_ok_iff, Text.indentAt?_eq_some_iff] at h ⊢
    obtain ⟨x, y, rfl, rfl, rfl⟩ := h
    refine ⟨f.front ++ x, y ++ f.back, by simp [text], ?_, ?_⟩
    · rw [Text.size_append, Nat.add_comm]
    · rw [hf.lastLine_append, ← List.append_assoc, hf.takeWhile_append]

theorem insert?_text {added : Text} (h : t.insert? offset added = some u) :
    (f.text t).insert? (offset + f.front.size) added = some (f.text u) := by
  obtain ⟨x, y, rfl, rfl, rfl⟩ := Text.insert?_eq_some_iff.1 h
  refine Text.insert?_eq_some_iff.2 ⟨f.front ++ x, y ++ f.back, by simp [text], ?_, by simp [text]⟩
  rw [Text.size_append, Nat.add_comm]

theorem remeasure_text {target : Target} (hstart : 0 < call.argsStart)
    (h : target.remeasure t call = .ok now) :
    target.remeasure (f.text t) (call.shift f.front.size) = .ok (now.shift f.front.size) := by
  have hbody : (call.shift f.front.size).openOffset + target.brackets.opening.utf8Size =
      call.openOffset + target.brackets.opening.utf8Size + f.front.size := by
    simp only [Call.shift, Call.openOffset]
    omega
  rw [Target.remeasure, hbody]
  rw [Target.remeasure] at h
  cases hcut : t.cut? (call.openOffset + target.brackets.opening.utf8Size) with
  | none =>
    rw [hcut] at h
    cases h
  | some parts =>
    obtain ⟨x, y⟩ := parts
    rw [cut?_text hcut]
    simp only [hcut, Fault.ofPlace, bind, Except.bind, Brackets.closing?] at h ⊢
    rw [Brackets.closingFrom?_offset]
    cases hend : target.brackets.closingFrom? 0
        (call.openOffset + target.brackets.opening.utf8Size) y with
    | none =>
      rw [hend] at h
      cases h
    | some argsEnd =>
      rw [hend] at h
      rw [(Brackets.closingFrom?_append_of_eq_some hend f.back).2]
      obtain rfl := Except.ok.inj h
      rfl

/-! ## Turns -/

variable {filler : Filler} {p next : Progress} (hf : f.Apart) (hstart : 0 < call.argsStart)

include hf hstart

theorem add_around {rule : Rule} (h : filler.add call rule offset p = .ok next) :
    filler.add (call.shift f.front.size) rule (offset + f.front.size) (f.around p) =
      .ok (f.around next) := by
  obtain ⟨indent, u, grown, hindent, htext, hgrown, hfound, rfl⟩ := add_eq_ok_iff.1 h
  refine add_eq_ok_iff.2 ⟨indent, f.text u, grown.shift f.front.size, indentation_text hf hindent,
    insert?_text htext, remeasure_text hstart hgrown, isPresent_text hfound, ?_⟩
  simp [around, Progress.put, Call.shift, Insertion.shift]

theorem deals_around {found : Option Rule} {turn : Turn} (h : filler.Deals call now p found turn) :
    filler.Deals (call.shift f.front.size) (now.shift f.front.size) (f.around p) found
      (f.aroundTurn turn) := by
  cases h with
  | settled => exact .settled
  | @leftOut rule fault hslot hfault =>
    have hbad : slot p.text now rule ≠ .error .badOffset := by
      rw [hslot]
      rintro ⟨⟩
      cases hfault
    have hleave : f.around (p.leave call rule) = (f.around p).leave (call.shift f.front.size) rule := by
      simp [around, Progress.leave, Call.shift, Skip.shift]
    rw [aroundTurn, hleave]
    refine .leftOut ?_ hfault
    exact (slot_text hbad).trans (by rw [hslot]; rfl)
  | @added rule offset next hslot hadd =>
    have hbad : slot p.text now rule ≠ .error .badOffset := by
      rw [hslot]
      exact nofun
    refine .added ?_ (add_around hf hstart hadd)
    exact (slot_text hbad).trans (by rw [hslot]; rfl)

theorem turn_around {out : List Rule} {turn : Turn} (h : filler.turn call out p = .ok turn) :
    filler.turn (call.shift f.front.size) out (f.around p) = .ok (f.aroundTurn turn) := by
  obtain ⟨now, absent, hnow, habsent, hdeals⟩ := turn_eq_ok_iff.1 h
  exact turn_eq_ok_iff.2 ⟨now.shift f.front.size, absent, remeasure_text hstart hnow,
    missing_text habsent, deals_around hf hstart hdeals⟩

theorem fillCall_around {left : Nat} {out : List Rule} {last : Progress}
    (h : filler.fillCall call left out p = .ok last) :
    filler.fillCall (call.shift f.front.size) left out (f.around p) = .ok (f.around last) := by
  induction left generalizing out p with
  | zero => cases h
  | succ left ih =>
    rw [fillCall] at h ⊢
    cases hturn : filler.turn call out p with
    | error fault =>
      rw [hturn] at h
      cases h
    | ok turn =>
      rw [hturn] at h
      rw [turn_around hf hstart hturn]
      cases turn with
      | settled =>
        obtain rfl := Except.ok.inj h
        rfl
      | added next => exact ih h
      | leftOut rule next => exact ih h

omit hstart in
/-- A run over a text goes through in a frame as well, and does the same there. -/
theorem fillCalls_around {budget : Nat} {calls : List Call} (hcalls : ∀ call ∈ calls, 0 < call.argsStart)
    {last : Progress} (h : filler.fillCalls budget calls p = .ok last) :
    filler.fillCalls budget (calls.map (Call.shift f.front.size)) (f.around p) =
      .ok (f.around last) := by
  induction calls generalizing p with
  | nil =>
    obtain rfl := Except.ok.inj h
    rfl
  | cons call calls ih =>
    rw [fillCalls, List.foldlM_cons] at h
    rw [List.map_cons, fillCalls, List.foldlM_cons]
    cases hcall : filler.fillCall call budget [] p with
    | error fault =>
      rw [hcall] at h
      cases h
    | ok next =>
      rw [hcall] at h
      rw [fillCall_around hf (hcalls call List.mem_cons_self) hcall]
      exact ih (fun c hc => hcalls c (List.mem_cons_of_mem call hc)) h

end Frame

end Filler

/-! ## Two texts -/

namespace Target

variable {target : Target}

/-- What is found does not hang on the character before a text, if a name may begin behind it. -/
theorem filterMap_callAt?_congr {b b' : Option Char} (h : endsWord b = endsWord b') (o : Nat)
    (t : Text) : (Text.occurrencesFrom target.construct 0 b o t).filterMap target.callAt? =
      (Text.occurrencesFrom target.construct 0 b' o t).filterMap target.callAt? := by
  cases t with
  | nil => rfl
  | cons c t =>
    cases hc : Text.startsWith (c :: t) target.construct with
    | false => rw [Text.occurrencesFrom_passed hc, Text.occurrencesFrom_passed hc]
    | true =>
      have hfirst : target.callAt? ⟨o, b, (c :: t).drop target.construct.length⟩ =
          target.callAt? ⟨o, b', (c :: t).drop target.construct.length⟩ := by
        simp only [callAt?, h]
      rw [Text.occurrencesFrom_found hc, Text.occurrencesFrom_found hc, List.filterMap_cons, hfirst,
        List.filterMap_cons]

/-- A call that ends stays what it is with more text behind, and no call comes about if what follows
cannot open its list. -/
theorem callAt?_extend {s : Char} (hblank : isBlankChar s = false) (ho : s ≠ target.brackets.opening)
    {o : Occurrence} (h : ∀ fault, target.callAt? o ≠ some (.error fault)) (t : Text) :
    target.callAt? (o.extend (s :: t)) = target.callAt? o := by
  cases hopens : target.opensAt o with
  | false =>
    rw [callAt?_of_opensAt_eq_false hopens,
      callAt?_of_opensAt_eq_false ((opensAt_extend_cons hblank ho o t).trans hopens)]
  | true =>
    obtain ⟨hbefore, hopen, blanks, rest, hafter, hblanks⟩ := exists_of_opensAt hopens
    have hext : (o.extend (s :: t)).after = blanks ++ target.brackets.opening :: (rest ++ s :: t) := by
      simp [Occurrence.extend, hafter]
    rw [callAt?_eq hbefore hopen hblanks hafter, callOrFault] at h ⊢
    rw [callAt?_eq (o := o.extend (s :: t)) hbefore hopen hblanks hext, callOrFault]
    cases hend : target.brackets.closing?
        (o.offset + target.construct.size + blanks.size + target.brackets.opening.utf8Size) rest with
    | none =>
      rw [hend] at h
      exact absurd rfl (h _)
    | some e =>
      rw [Brackets.closing?] at hend ⊢
      simp only [Occurrence.extend, (Brackets.closingFrom?_append_of_eq_some hend (s :: t)).2]

theorem argsStart_pos_of_mem_locate {t : Text} {calls : List Call} (h : target.locate t = .ok calls)
    {call : Call} (hc : call ∈ calls) : 0 < call.argsStart :=
  Nat.zero_lt_of_lt (start_lt_argsStart_of_mem_locate h hc)

theorem locate_append (hname : target.construct.isQualifiedName = true)
    (ho : target.brackets.opening ≠ ';') {a b : Text} {first later : List Call}
    (ha : target.locate a = .ok first) (hb : target.locate b = .ok later) :
    target.locate (a ++ ';' :: '\n' :: b) = .ok (first ++ later.map (Call.shift (a.size + 2))) := by
  have hw := Text.ne_nil_of_isQualifiedName hname
  have hsemicolon : ';' ∉ target.construct :=
    Text.not_mem_of_isQualifiedName hname isNameChar_semicolon (by decide)
  have hline : '\n' ∉ target.construct :=
    Text.not_mem_of_isQualifiedName hname isNameChar_lineFeed (by decide)
  have hsplit : Text.occurrencesFrom target.construct 0 (some ';') (0 + a.size + ';'.utf8Size)
      ('\n' :: b) = (Text.occurrencesFrom target.construct 0 (some '\n') 0 b).map
        (Occurrence.shift (a.size + 2)) := by
    have hsize : 0 + a.size + ';'.utf8Size + Text.size [] + '\n'.utf8Size = 0 + (a.size + 2) := by
      rw [Nat.zero_add, Nat.zero_add]
      rfl
    rw [← List.nil_append ('\n' :: b), Text.occurrencesFrom_append_cons hline hw (Nat.zero_le _),
      Text.occurrencesFrom_nil, List.map_nil, List.nil_append, hsize, Text.occurrencesFrom_offset]
  rw [locate_eq_ok_iff, found_eq hw] at ha hb ⊢
  have hfirst : ((Text.occurrencesFrom target.construct 0 none 0 a).map
      (·.extend (';' :: '\n' :: b))).filterMap target.callAt? = first.map .ok := by
    rw [← ha, List.filterMap_map]
    refine List.filterMap_congr fun o hmem => ?_
    refine callAt?_extend (by decide) ho.symm (fun fault hfault => ?_) _
    have hfound := List.mem_filterMap.2 ⟨o, hmem, hfault⟩
    rw [ha, List.mem_map] at hfound
    obtain ⟨call, -, hcall⟩ := hfound
    cases hcall
  have hlater : ((Text.occurrencesFrom target.construct 0 (some '\n') 0 b).map
      (Occurrence.shift (a.size + 2))).filterMap target.callAt? =
        (later.map (Call.shift (a.size + 2))).map .ok := by
    have hmoved : Fault.movedIn 0 (a.size + 2) ∘ Except.ok = Except.ok ∘ Call.shift (a.size + 2) := by
      funext call
      simp only [Function.comp, Fault.movedIn, Call.moved_zero]
    rw [filterMap_callAt?_shift fun o _ => Nat.zero_le o.offset, List.map_map, ← hmoved,
      ← List.map_map, ← hb,
      filterMap_callAt?_congr (show endsWord none = endsWord (some '\n') from rfl)]
  rw [Text.occurrencesFrom_append_cons hsemicolon hw (Nat.zero_le _), hsplit, List.filterMap_append,
    hfirst, hlater, List.map_append]

end Target

namespace Filler

variable {filler : Filler} {budget : Nat}

theorem fillCalls_append {calls later : List Call} {p q : Progress}
    (h : filler.fillCalls budget calls p = .ok q) :
    filler.fillCalls budget (calls ++ later) p = filler.fillCalls budget later q := by
  rw [fillCalls, List.foldlM_append]
  rw [fillCalls] at h
  rw [h]
  rfl

/-- **Two texts that a semicolon and a line end part are filled as each of them is alone.** What was
done to the second one comes first, with its offsets moved by the first text as it was. -/
theorem apply_append (haccepted : filler.refusal? = none)
    (ho : filler.target.brackets.opening ≠ ';') {a b a' b' : Text} {ra rb : Report}
    (ha : filler.apply budget a = .ok (a', ra)) (hb : filler.apply budget b = .ok (b', rb)) :
    filler.apply budget (a ++ [';', '\n'] ++ b) = .ok (a' ++ [';', '\n'] ++ b',
      ⟨filler.target.construct, ra.callCount + rb.callCount,
        rb.insertions.map (Insertion.shift (a.size + 2)) ++ ra.insertions,
        rb.skips.map (Skip.shift (a.size + 2)) ++ ra.skips⟩) := by
  obtain ⟨first, hfirst⟩ := exists_locate_of_apply ha
  obtain ⟨later, hlater⟩ := exists_locate_of_apply hb
  have hname := isQualifiedName_of_refusal? haccepted
  have hlocate := Target.locate_append hname ho hfirst hlater
  have hassoc : a ++ [';', '\n'] ++ b = a ++ ';' :: '\n' :: b := by simp
  rw [hassoc]
  by_cases hrules : filler.rules = []
  · rw [apply_of_rules_nil hfirst hrules] at ha
    rw [apply_of_rules_nil hlater hrules] at hb
    obtain ⟨rfl, rfl⟩ := Prod.mk.inj (Except.ok.inj ha)
    obtain ⟨rfl, rfl⟩ := Prod.mk.inj (Except.ok.inj hb)
    rw [apply_of_rules_nil hlocate hrules]
    simp
  · obtain ⟨p, hp, rfl, rfl⟩ := (apply_eq_ok_iff hfirst hrules).1 ha
    obtain ⟨q, hq, rfl, rfl⟩ := (apply_eq_ok_iff hlater hrules).1 hb
    -- the first text stands before the second one while that is filled
    have hsecond := Frame.fillCalls_around (f := ⟨a ++ [';', '\n'], [], [], []⟩)
      ⟨Or.inr ⟨a ++ [';'], by simp⟩, fun c hc => (nomatch hc)⟩
      (fun call hcall => Target.argsStart_pos_of_mem_locate hlater (List.mem_reverse.1 hcall)) hq
    -- and the second one, filled, stands behind the first
    have hthen := Frame.fillCalls_around (f := ⟨[], ';' :: '\n' :: q.text,
        q.insertions.map (Insertion.shift (a.size + 2)), q.skips.map (Skip.shift (a.size + 2))⟩)
      ⟨Or.inl rfl, fun c hc => by obtain rfl := Option.some.inj hc; decide⟩
      (fun call hcall => Target.argsStart_pos_of_mem_locate hfirst (List.mem_reverse.1 hcall)) hp
    have hsize : Text.size (a ++ [';', '\n']) = a.size + 2 := by
      rw [Text.size_append]
      rfl
    simp only [Frame.around, Frame.text, hsize, List.map_nil, List.append_nil, List.nil_append,
      List.append_assoc, List.cons_append] at hsecond
    simp only [Frame.around, Frame.text, List.map_nil, List.append_nil, List.nil_append,
      Text.size_nil, Call.shift_zero, Insertion.shift_zero, Skip.shift_zero, List.map_id] at hthen
    refine (apply_eq_ok_iff hlocate hrules).2 ⟨⟨p.text ++ ';' :: '\n' :: q.text,
      q.insertions.map (Insertion.shift (a.size + 2)) ++ p.insertions,
      q.skips.map (Skip.shift (a.size + 2)) ++ p.skips⟩, ?_, by simp, by simp⟩
    rw [List.reverse_append, ← List.map_reverse, fillCalls_append hsecond]
    exact hthen

theorem apply_append_sample :
    let filler : Filler :=
      ⟨⟨['P'], .round⟩, [⟨['b'], ['a'], ['1']⟩, ⟨['d'], ['z'], ['2']⟩], .matchAnchor⟩
    let a := "P(
  a: 0,
)".toList
    let a' := "P(
  a: 0,
  b: 1,
)".toList
    let b := "	P(a: P(z: 0,),)".toList
    let b' := "	P(a: P(z: 0,
	d: 2,),
	b: 1,)".toList
    let ra : Report := ⟨['P'], 1, [⟨0, 10, ['b']⟩], [⟨0, ['d'], ['z']⟩]⟩
    let rb : Report := ⟨['P'], 2, [⟨6, 13, ['d']⟩, ⟨1, 22, ['b']⟩], [⟨6, ['b'], ['a']⟩]⟩
    filler.refusal? = none ∧ filler.target.brackets.opening ≠ ';' ∧
    filler.apply 3 a = .ok (a', ra) ∧ filler.apply 3 b = .ok (b', rb) ∧
    filler.apply 3 (a ++ [';', '\n'] ++ b) = .ok (a' ++ [';', '\n'] ++ b',
      ⟨filler.target.construct, ra.callCount + rb.callCount,
        rb.insertions.map (Insertion.shift (Text.size a + 2)) ++ ra.insertions,
        rb.skips.map (Skip.shift (Text.size a + 2)) ++ ra.skips⟩) := by
  intro filler a a' b b' ra rb
  have haccepted : filler.refusal? = none := by decide +kernel
  have ho : filler.target.brackets.opening ≠ ';' := by decide
  have ha : filler.apply 3 a = .ok (a', ra) := by rfl
  have hb : filler.apply 3 b = .ok (b', rb) := by rfl
  exact ⟨haccepted, ho, ha, hb, apply_append haccepted ho ha hb⟩

end Filler

end ArgFill
