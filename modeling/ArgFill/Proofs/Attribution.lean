import ArgFill.Proofs.Plain
import ArgFill.Proofs.Replay

/-!
# Whose list an argument lands in

An argument is put in behind a comma that the search for anchors takes for one of the call's own. It
does stand in the list of the call (`Target.LandsIn`). But that search skips quoted text and knows
three kinds of brackets, where the search for the end of a list counts round brackets only, in
quotes too. So the comma may stand in the list of a nested call, if the two do not agree on what is
nested (`Target.TellsNested`).

* `TellsNested.insert` : where they agree, they do so still after plain text was put in behind a
  comma;
* `apply_lands` : each argument lands in the list of its call, and in no nested one where they agree
  on the text that the run began with;
* `lands_in_nested` : where they do not, it may land in a nested list;
* `tellsNested_of_all_isCommon` : they agree on lists without quotes and other brackets.
-/

namespace ArgFill

/-- A comma of an argument list at the top, with `n` bytes before it. -/
def Text.TopComma (args : Text) (n : Nat) : Prop :=
  ∃ x y : Text, args = x ++ ',' :: y ∧ Reading.top.through x = .top ∧ n = x.size

namespace Target

/-- No comma of the list of `call` that is at the top stands in the list of a call nested in it. -/
def TellsNested (target : Target) (t : Text) (call : Call) : Prop :=
  ∀ (args : Text) (calls : List Call) (inner : Call) (n : Nat), call.args? t = some args →
    target.locate t = .ok calls → inner ∈ calls → call.contains inner = true → args.TopComma n →
      ¬ (inner.argsStart ≤ call.argsStart + n ∧ call.argsStart + n < inner.argsEnd)

/-- An insertion into a text lands in the argument list of `now`, which is the call it names. -/
structure LandsIn (target : Target) (t : Text) (i : Insertion) (now : Call) : Prop where
  located : ∃ nows, target.locate t = .ok nows ∧ now ∈ nows
  start : now.start = i.callStart
  argsStart : now.argsStart ≤ i.offset
  argsEnd : i.offset ≤ now.argsEnd

def LandsApart (target : Target) (t : Text) (i : Insertion) (now : Call) : Prop :=
  ∀ (nows : List Call) (inner : Call), target.locate t = .ok nows → inner ∈ nows →
    now.contains inner = true → ¬ (inner.argsStart ≤ i.offset ∧ i.offset ≤ inner.argsEnd)

end Target

/-! ## Plain text behind a comma -/

/-- The commas at the top stay the same, but for the one that is put in. -/
theorem Text.topComma_insert {x y body : Text}
    (hbody : ∀ c ∈ body, Reading.passes c = true ∧ c ≠ '\\' ∧ c ≠ ',') {n : Nat}
    (h : (x ++ ',' :: (body ++ ',' :: y)).TopComma n) :
    (∃ m, (x ++ ',' :: y).TopComma m ∧ n = movedBy (x.size + 1) (body ++ [',']).size m) ∨
      ((x ++ ',' :: y).TopComma x.size ∧ n = x.size + (body ++ [',']).size) := by
  obtain ⟨upTo, rest, hsplit, htop, rfl⟩ := h
  have hsteady := Reading.steady_behind_comma x
  have hskip : ((Reading.top.through x).next ',').through body = (Reading.top.through x).next ',' :=
    hsteady.through fun c hc => ⟨(hbody c hc).1, (hbody c hc).2.1⟩
  have hcomma : ((Reading.top.through x).next ',').next ',' = (Reading.top.through x).next ',' :=
    hsteady ',' (by decide) (by decide)
  have hsize : ','.utf8Size = 1 := rfl
  rcases Text.append_cons_cases hsplit with ⟨rfl, -, -⟩ | ⟨mid, rfl, hmid⟩ | ⟨mid, rfl, -⟩
  · exact Or.inl ⟨_, ⟨x, y, rfl, htop, rfl⟩, (movedBy_of_lt (Nat.lt_succ_self _)).symm⟩
  · rw [Reading.through_append, Reading.through_cons] at htop
    rcases Text.append_cons_cases hmid with ⟨rfl, -, -⟩ | ⟨late, rfl, rfl⟩ | ⟨late, rfl, -⟩
    · -- the comma that is put in
      rw [hskip] at htop
      refine Or.inr ⟨⟨x, y, rfl, Reading.eq_top_of_next_comma htop, rfl⟩, ?_⟩
      simp only [Text.size_append, Text.size_cons, Text.size_nil]
      omega
    · -- a comma behind it
      rw [Reading.through_append, hskip, Reading.through_cons, hcomma] at htop
      refine Or.inl ⟨_, ⟨x ++ ',' :: late, rest, by simp, ?_, rfl⟩, ?_⟩
      · rw [Reading.through_append, Reading.through_cons, htop]
      · rw [movedBy_of_le]
        · simp only [Text.size_append, Text.size_cons, Text.size_nil]
          omega
        · simp only [Text.size_append, Text.size_cons]
          omega
    · exact absurd rfl (hbody ',' (by simp)).2.2
  · refine Or.inl ⟨_, ⟨upTo, mid ++ ',' :: y, by simp, htop, rfl⟩, (movedBy_of_lt ?_).symm⟩
    simp only [Text.size_append, Text.size_cons]
    omega

/-- Where nested lists are told, they are told with plain text behind any comma. -/
theorem Target.TellsNested.insert {target : Target}
    (hname : target.construct.isQualifiedName = true) (hb : target.brackets.StandOut) {body : Text}
    (hbody : target.Inert body)
    (hplain : ∀ c ∈ body, Reading.passes c = true ∧ c ≠ '\\' ∧ c ≠ ',') {front back : Text}
    {calls : List Call} (hlocate : target.locate (front ++ ',' :: back) = .ok calls) {call : Call}
    (hcall : call ∈ calls) (h : target.TellsNested (front ++ ',' :: back) call) :
    target.TellsNested (front ++ ',' :: (body ++ ',' :: back))
      (call.moved (front.size + 1) (body ++ [',']).size) := by
  have hmono := strictMono_movedBy (front.size + 1) (body ++ [',']).size
  intro grown nows now n hgrown hnows hnow hcontains htop
  rw [locate_insert hname hb hbody hlocate] at hnows
  obtain rfl := Except.ok.inj hnows
  obtain ⟨inner, hinner, rfl⟩ := List.mem_map.1 hnow
  have hcontains : call.contains inner = true := by
    rw [← Call.contains_under hmono]
    exact hcontains
  obtain ⟨args, hargs⟩ := exists_hasArgs_of_mem_locate hlocate hcall
  have old : ∀ m, args.TopComma m →
      ¬ (inner.argsStart ≤ call.argsStart + m ∧ call.argsStart + m < inner.argsEnd) :=
    fun m hm => h args calls inner m hargs.args? hlocate hinner hcontains hm
  obtain ⟨args', hargs', hcase⟩ := hargs.insert_inert hb hbody
  obtain rfl : grown = args' := Option.some.inj (hgrown.symm.trans hargs'.args?)
  simp only [Call.moved_argsStart, Call.moved_argsEnd]
  rcases hcase with ⟨rfl, hout⟩ | ⟨x, y, rfl, rfl, hsize⟩
  · -- the text is put in outside of the list
    have hnot := old n htop
    have hbegin := start_lt_argsStart_of_mem_locate hlocate hinner
    obtain ⟨_, hinnerArgs⟩ := exists_hasArgs_of_mem_locate hlocate hinner
    have hend := hargs.argsEnd_eq
    have hinnerEnd := hinnerArgs.argsEnd_eq
    simp only [Call.contains, Bool.and_eq_true, decide_eq_true_eq] at hcontains
    rcases hout with hout | hout
    · rw [movedBy_of_le hout, movedBy_of_le (by omega), movedBy_of_le (by omega)]
      omega
    · rw [movedBy_of_lt (by omega), movedBy_of_lt (by omega), movedBy_of_lt (by omega)]
      exact hnot
  · have hstart : movedBy (front.size + 1) (body ++ [',']).size call.argsStart = call.argsStart :=
      movedBy_of_lt (by omega)
    rw [hstart]
    rcases Text.topComma_insert hplain htop with ⟨m, hm, rfl⟩ | ⟨hm, rfl⟩
    · have hmoved : call.argsStart + movedBy (Text.size x + 1) (body ++ [',']).size m =
          movedBy (front.size + 1) (body ++ [',']).size (call.argsStart + m) := by
        unfold movedBy
        split <;> split <;> omega
      rw [hmoved, hmono.le_iff_le, hmono.lt_iff_lt]
      exact old m hm
    · -- the comma that is put in stands right behind the text it belongs to
      have hnot := old (Text.size x) hm
      rintro ⟨hle, hlt⟩
      unfold movedBy at hle hlt
      split at hle <;> split at hlt <;> omega

/-! ## The place of an insertion -/

theorem Call.HasArgs.exists_comma {b : Brackets} {t x y : Text} {call : Call}
    (h : call.HasArgs b t (x ++ ',' :: y)) :
    ∃ front rest, t = (front ++ b.opening :: x) ++ ',' :: rest ∧
      call.argsStart = Text.size front + b.opening.utf8Size := by
  obtain ⟨front, back, rfl, hstart, -, -⟩ := h
  exact ⟨front, y ++ b.closing :: back, by simp, hstart⟩

/-- No argument list begins right behind a comma: the bracket that opens it stands there. -/
theorem Call.HasArgs.argsStart_ne {b : Brackets} (hb : b.StandOut) {front back args : Text}
    {call : Call} (h : call.HasArgs b (front ++ ',' :: back) args) :
    call.argsStart ≠ front.size + 1 := by
  obtain ⟨before, behind, ht, hstart, -, -⟩ := h
  have hone := hb.oneByte
  intro hplace
  obtain ⟨-, hchar⟩ := Text.append_inj_of_size_eq ht (by omega)
  exact hb.comma_ne.1 (List.cons.inj hchar).1

namespace Target

variable {target : Target} {t x y : Text} {i : Insertion} {now : Call}

theorem LandsIn.of_hasArgs {nows : List Call} (hlocate : target.locate t = .ok nows)
    (hnow : now ∈ nows) (hargs : now.HasArgs target.brackets t (x ++ ',' :: y))
    (hstart : now.start = i.callStart) (hoffset : i.offset = now.argsStart + (x.size + 1)) :
    target.LandsIn t i now := by
  have hend := hargs.argsEnd_eq
  have hcomma : ','.utf8Size = 1 := rfl
  rw [Text.size_append, Text.size_cons] at hend
  exact ⟨⟨nows, hlocate, hnow⟩, hstart, by omega, by omega⟩

/-- Behind a comma at the top it is in no nested list, where these are told. No list begins right
behind a comma. -/
theorem TellsNested.landsApart (h : target.TellsNested t now) (hb : target.brackets.StandOut)
    (hargs : now.HasArgs target.brackets t (x ++ ',' :: y))
    (htop : Reading.top.through x = .top) (hoffset : i.offset = now.argsStart + (x.size + 1)) :
    target.LandsApart t i now := by
  rintro nows inner hnows hinner hcontains ⟨hle, hlt⟩
  have hnot := h _ nows inner x.size hargs.args? hnows hinner hcontains ⟨x, y, rfl, htop, rfl⟩
  obtain ⟨front, rest, ht, hstart⟩ := hargs.exists_comma
  obtain ⟨_, hinnerArgs⟩ := exists_hasArgs_of_mem_locate hnows hinner
  rw [ht] at hinnerArgs
  have hbegin := hinnerArgs.argsStart_ne hb
  rw [Text.size_append, Text.size_cons] at hbegin
  omega

end Target

/-! ## Lists on which the searches agree -/

/-- A character that both searches take alike: a round bracket, or one that reading passes over. -/
def isCommon (c : Char) : Bool := Reading.passes c || c == '(' || c == ')'

theorem isCommon_iff {c : Char} :
    isCommon c = true ↔ Reading.passes c = true ∨ c = '(' ∨ c = ')' := by
  simp [isCommon, or_assoc]

theorem Reading.through_of_depth? {t : Text} (h : ∀ c ∈ t, isCommon c = true) {d e : Nat}
    (hdepth : Brackets.round.depth? d t = some e) :
    Reading.through ⟨.outside, d⟩ t = ⟨.outside, e⟩ := by
  induction t generalizing d with
  | nil =>
    obtain rfl : d = e := by simpa using hdepth
    rfl
  | cons c t ih =>
    have hrest := fun {d} => ih (d := d) fun k hk => h k (List.mem_cons_of_mem c hk)
    rw [through_cons]
    rcases isCommon_iff.1 (h c List.mem_cons_self) with hc | rfl | rfl
    · have hopen : c ≠ '(' := by rintro rfl; revert hc; decide
      have hclose : c ≠ ')' := by rintro rfl; revert hc; decide
      rw [Brackets.depth?_cons_of_ne hopen hclose] at hdepth
      rw [next_of_passes hc]
      exact hrest hdepth
    · exact hrest hdepth
    · cases d with
      | zero => cases hdepth
      | succ d => exact hrest hdepth

namespace Target

variable {target : Target} {t x y : Text} {calls : List Call} {call inner : Call}

/-- A comma in the list of a nested call stands behind the bracket that opens that list. -/
theorem exists_opening_of_contains (hb : target.brackets.StandOut)
    (hlocate : target.locate t = .ok calls)
    (hargs : call.HasArgs target.brackets t (x ++ ',' :: y)) (hinner : inner ∈ calls)
    (hcontains : call.contains inner = true) (hle : inner.argsStart ≤ call.argsStart + x.size)
    (hlt : call.argsStart + x.size < inner.argsEnd) :
    ∃ before mid, x = before ++ target.brackets.opening :: mid ∧
      ∃ e, target.brackets.depth? 0 mid = some e := by
  obtain ⟨front, rest, ht, hstart⟩ := hargs.exists_comma
  obtain ⟨args, front', back', ht', hstart', hend', hdepth'⟩ :=
    exists_hasArgs_of_mem_locate hlocate hinner
  have hbegin := start_lt_argsStart_of_mem_locate hlocate hinner
  simp only [Call.contains, Bool.and_eq_true, decide_eq_true_eq] at hcontains
  have hone := hb.oneByte
  have hopen := (standsOut_iff.1 hb.opening).2.2.2
  have hclose := (standsOut_iff.1 hb.closing).2.2.2
  rcases Text.append_cons_eq_append_cons hopen.symm (ht.symm.trans ht') with
    ⟨late, rfl, -⟩ | ⟨mid, hfront, hrest⟩
  · simp only [Text.size_append, Text.size_cons] at hstart'
    omega
  · have hsize := congrArg Text.size hfront
    simp only [Text.size_append, Text.size_cons] at hsize
    rcases Text.append_cons_cases hfront with ⟨rfl, -, -⟩ | ⟨before, rfl, rfl⟩ | ⟨late, rfl, -⟩
    · omega
    · rcases Text.append_cons_eq_append_cons hclose hrest with ⟨late, rfl, -⟩ | ⟨late, rfl, -⟩
      · simp only [Text.size_append, Text.size_cons] at hstart' hlt
        omega
      · rw [Brackets.depth?_append] at hdepth'
        obtain ⟨e, he, -⟩ := Option.bind_eq_some_iff.1 hdepth'
        exact ⟨before, mid, rfl, e, he⟩
    · simp only [Text.size_append, Text.size_cons] at hstart
      omega

/-- Without quotes and other brackets every nested call is told. -/
theorem tellsNested_of_all_isCommon (hb : target.brackets = .round)
    (hlocate : target.locate t = .ok calls) (hcall : call ∈ calls)
    (h : t.all isCommon = true) : target.TellsNested t call := by
  have hout : target.brackets.StandOut := hb ▸ Brackets.standOut_round
  rintro _ calls' inner n hargs hlocate' hinner hcontains ⟨x, y, rfl, htop, rfl⟩ ⟨hle, hlt⟩
  obtain rfl := Except.ok.inj (hlocate.symm.trans hlocate')
  obtain ⟨args, hhas⟩ := exists_hasArgs_of_mem_locate hlocate hcall
  obtain rfl : x ++ ',' :: y = args := Option.some.inj (hargs.symm.trans hhas.args?)
  obtain ⟨before, mid, rfl, e, hmid⟩ :=
    exists_opening_of_contains hout hlocate hhas hinner hcontains hle hlt
  obtain ⟨front, back, rfl, -, -, hdepth⟩ := hhas
  rw [hb] at hmid hdepth htop
  rw [Brackets.depth?_append, Brackets.depth?_append] at hdepth
  obtain ⟨_, hopened, -⟩ := Option.bind_eq_some_iff.1 hdepth
  obtain ⟨k, hbefore, -⟩ := Option.bind_eq_some_iff.1 hopened
  have hupTo : Brackets.round.depth? 0 (before ++ Brackets.round.opening :: mid) =
      some (e + (k + 1)) := by
    have hadd := Brackets.depth?_add hmid (k + 1)
    rw [Nat.zero_add] at hadd
    rw [Brackets.depth?_append, hbefore, Option.bind_some, Brackets.depth?_opening, hadd]
  have hread := Reading.through_of_depth? (fun c hc => List.all_eq_true.1 h c ?_) hupTo
  · rw [show (⟨.outside, 0⟩ : Reading) = .top from rfl, htop] at hread
    cases hread
  · rw [hb]
    exact List.mem_append_right _ (List.mem_cons_of_mem _ (List.mem_append_left _
      (List.mem_append_left _ hc)))

end Target

namespace Filler

variable {filler : Filler} {budget : Nat} {t : Text} {calls : List Call}

/-! ## Runs -/

/-- On its way from the text `t`, a text tells the nested calls wherever `t` tells them. -/
def Tells (filler : Filler) (t : Text) (calls : List Call) (p : Progress) : Prop :=
  ∃ g, filler.target.locate p.text = .ok (calls.map (Call.under g)) ∧
    ∀ call ∈ calls, filler.target.TellsNested t call →
      filler.target.TellsNested p.text (call.under g)

theorem invariant_tells (h : filler.Plain) (budget : Nat) (t : Text) (calls : List Call) :
    filler.Invariant budget calls (filler.Tells t calls) (fun _ _ _ p _ => filler.Tells t calls p)
      (fun _ _ _ => True) where
  enter _ htells _ _ := htells
  settled htells _ _ := ⟨htells, trivial⟩
  leftOut htells _ _ := htells
  added {call out left p rule front x y back indent} htells hnext _ hindent htext _ := by
    obtain ⟨g, hlocate, htold⟩ := htells
    have hrule := (of_next?_eq_some hnext).1
    have hkey := (isName_of_refusal? h.accepted hrule).1
    have hname := isQualifiedName_of_refusal? h.accepted
    have hbody := inert_argument hname h.inert.brackets hkey (h.inert.literals rule hrule) hindent
    rw [htext] at hlocate htold
    refine ⟨movedBy (front.size + 1) (rule.argument indent ++ [',']).size ∘ g, ?_,
      fun c hc hnested => ?_⟩
    · have hmoved := Target.locate_insert hname h.inert.brackets hbody hlocate
      rwa [List.map_map] at hmoved
    · exact (htold c hc hnested).insert hname h.inert.brackets hbody
        (fun d hd => passes_of_mem_argument hkey (h.literals rule hrule) hindent hd) hlocate
        (List.mem_map_of_mem hc)
  after_leave _ _ _ _ _ := trivial
  after_put _ _ _ _ _ _ _ _ _ := trivial

/-- An insertion lands behind a comma at the top of the list of its call. -/
theorem Holds.lands (hinert : filler.Inert) (hlocate : filler.target.locate t = .ok calls)
    {after : Progress → Call → Text → Prop} {s s' : State} {g : Nat → Nat} {done : List Call}
    (h : filler.Holds (filler.Tells t calls) (fun _ _ _ p _ => filler.Tells t calls p) after calls s
      g done) {i : Insertion} (hinserts : filler.Inserts budget s s' i) :
    ∃ call ∈ calls, i.callStart = call.start ∧
      ∃ now, filler.target.LandsIn s.progress.text i now ∧
        (filler.target.TellsNested t call → filler.target.LandsApart s.progress.text i now) := by
  have hb := hinert.brackets
  obtain ⟨hstep, hinsertions, -⟩ := hinserts
  cases hstep with
  | settled => simp at hinsertions
  | leftOut hturn =>
    obtain ⟨args, hopens, -⟩ := h.current _ rfl
    cases Outcome.of_turn hinert.accepted hb hopens hturn with
    | leftOut => simp at hinsertions
  | @added call rest out left p next hturn =>
    obtain ⟨args, hopens, g', hlocated', htold⟩ := h.current call rfl
    have hmem := h.mem.1 call List.mem_cons_self
    have hfix := h.fixed call List.mem_cons_self
    have hstart := Target.start_lt_argsStart_of_mem_locate hlocate hmem
    obtain ⟨args', hargs, hopens'⟩ := exists_opens h.located hmem (hfix _ (Nat.le_refl _))
    obtain rfl := hopens'.unique hb.differ hopens
    cases Outcome.of_turn hinert.accepted hb hopens hturn with
    | @added rule front x y back indent grown _ hsplit _ htop _ hargsStart =>
      subst hsplit
      simp only [Progress.put_insertions, List.append_cancel_left_eq, List.cons.injEq, and_true]
        at hinsertions
      obtain rfl := hinsertions
      have hsame : (call.under g).argsStart = call.argsStart := hfix _ (Nat.le_refl _)
      have hoffset : Text.size (front ++ filler.target.brackets.opening :: x) + 1 =
          (call.under g).argsStart + (Text.size x + 1) := by
        rw [Text.size_append, Text.size_cons]
        omega
      refine ⟨call, hmem, rfl, call.under g, .of_hasArgs h.located (List.mem_map_of_mem hmem) hargs
        (hfix _ (Nat.le_of_lt hstart)) hoffset, fun htells => ?_⟩
      have hunder : call.under g' = call.under g :=
        List.map_inj_left.1 (Except.ok.inj (hlocated'.symm.trans h.located)) call hmem
      have hnested := htold call hmem htells
      rw [hunder] at hnested
      exact hnested.landsApart hb hargs htop hoffset

/-- **Each argument lands in the list of its call.** It lands in the list of no call nested in that
one, if the text tells the calls nested in it. A text without quotes and other brackets tells them
all. -/
theorem apply_lands (h : filler.Plain) {u : Text} {report : Report}
    (hrun : filler.apply budget t = .ok (u, report))
    (hlocate : filler.target.locate t = .ok calls) :
    (t.all isCommon = true → ∀ call ∈ calls, filler.target.TellsNested t call) ∧
    ∀ i ∈ report.insertions, ∃ call ∈ calls, i.callStart = call.start ∧ ∃ s s',
      filler.Run budget ⟨calls.reverse, [], budget, ⟨t, [], []⟩⟩ s ∧ filler.Inserts budget s s' i ∧
      filler.Run budget s' ⟨[], [], budget, ⟨u, report.insertions, report.skips⟩⟩ ∧
      ∃ now, filler.target.LandsIn s.progress.text i now ∧
        (filler.target.TellsNested t call → filler.target.LandsApart s.progress.text i now) := by
  have hinert := h.inert
  refine ⟨fun hcommon call hcall => Target.tellsNested_of_all_isCommon h.brackets
    hlocate hcall hcommon, ?_⟩
  intro i hi
  obtain ⟨s, s', hbefore, hinserts, hbehind⟩ := apply_inserts hrun hlocate hi
  have hinv := invariant_tells h budget t calls
  have htells : filler.Tells t calls ⟨t, [], []⟩ :=
    ⟨id, by rwa [Call.map_under_id], fun call _ hnested => hnested⟩
  obtain ⟨g, done, hholds⟩ :=
    (Holds.first hlocate hinv htells).run hinv hinert hlocate hbefore
  obtain ⟨call, hcall, hstart, now, hlands⟩ := hholds.lands hinert hlocate hinserts
  exact ⟨call, hcall, hstart, s, s', hbefore, hinserts, hbehind, now, hlands⟩

theorem apply_lands_sample :
    let t := "P(a: P(z: 0,),)".toList
    let u := "P(a: P(z: 0,\nd: 2,),\nb: 1,)".toList
    let calls : List Call := [⟨0, 2, 14⟩, ⟨5, 7, 12⟩]
    let report : Report := ⟨['P'], 2, [⟨5, 12, ['d']⟩, ⟨0, 20, ['b']⟩], [⟨5, ['b'], ['a']⟩]⟩
    sample.Plain ∧ sample.apply 3 t = .ok (u, report) ∧ sample.target.locate t = .ok calls ∧
    t.all isCommon = true ∧
    (t.all isCommon = true → ∀ call ∈ calls, sample.target.TellsNested t call) ∧
    ∀ i ∈ report.insertions, ∃ call ∈ calls, i.callStart = call.start ∧ ∃ s s',
      sample.Run 3 ⟨calls.reverse, [], 3, ⟨t, [], []⟩⟩ s ∧ sample.Inserts 3 s s' i ∧
      sample.Run 3 s' ⟨[], [], 3, ⟨u, report.insertions, report.skips⟩⟩ ∧
      ∃ now, sample.target.LandsIn s.progress.text i now ∧
        (sample.target.TellsNested t call → sample.target.LandsApart s.progress.text i now) := by
  intro t u calls report
  have hrun : sample.apply 3 t = .ok (u, report) := by rfl
  have hlocate : sample.target.locate t = .ok calls := by rfl
  exact ⟨plain_sample, hrun, hlocate, by decide, apply_lands plain_sample hrun hlocate⟩

/-- Without that an argument may land in a nested list. The quoted `P(` is located as a call, and
the brackets at the end close both calls, so the comma behind `1` stands in both lists. The search
for anchors skips the quoted text and takes the comma for one of the outer list. -/
theorem lands_in_nested :
    let filler : Filler := ⟨⟨['P'], .round⟩, [⟨['k'], ['a'], ['2']⟩], .none⟩
    let t := "P(s: 'P(', a: 1, b))".toList
    let u := "P(s: 'P(', a: 1,\nk: 2, b))".toList
    let calls : List Call := [⟨0, 2, 19⟩, ⟨6, 8, 18⟩]
    let i : Insertion := ⟨0, 16, ['k']⟩
    let skips : List Skip := [⟨6, ['k'], ['a']⟩]
    filler.Plain ∧ filler.target.locate t = .ok calls ∧
    filler.apply defaultBudget t = .ok (u, ⟨['P'], 2, [i], skips⟩) ∧
    ∀ s s', filler.Run defaultBudget ⟨calls.reverse, [], defaultBudget, ⟨t, [], []⟩⟩ s →
      filler.Inserts defaultBudget s s' i →
      filler.Run defaultBudget s' ⟨[], [], defaultBudget, ⟨u, [i], skips⟩⟩ →
      ∀ now, filler.target.LandsIn s.progress.text i now →
        ¬ filler.target.LandsApart s.progress.text i now := by
  intro filler t u calls i skips
  have haccepted : filler.refusal? = none := by decide +kernel
  have hlocate : filler.target.locate t = .ok calls := by rfl
  have hplain : filler.Plain := by
    refine ⟨haccepted, rfl, fun rule hrule c hc => ?_⟩
    obtain rfl := List.mem_singleton.1 hrule
    obtain rfl := List.mem_singleton.1 hc
    decide
  refine ⟨hplain, hlocate, by rfl, ?_⟩
  intro s s' hbefore hinserts hbehind now hin hapart
  -- nothing was put in before, so the text is the first one
  obtain ⟨more, hmore⟩ := hbehind.insertions_grow
  rw [hinserts.insertions, List.append_assoc] at hmore
  have hnone : s.progress.insertions = [] := by
    have hlength := congrArg List.length hmore
    simp only [List.length_append, List.length_singleton] at hlength
    exact List.length_eq_zero_iff.1 (by omega)
  have hreplays := hbefore.replays haccepted rfl
  rw [hnone] at hreplays
  have htext : s.progress.text = t := hreplays.eq_of_nil
  rw [htext] at hin hapart
  obtain ⟨nows, hnows, hnow⟩ := hin.located
  obtain rfl := Except.ok.inj (hlocate.symm.trans hnows)
  have hstart : now.start = 0 := hin.start
  have houter : now = ⟨0, 2, 19⟩ := by
    rcases List.mem_cons.1 hnow with rfl | hnow
    · rfl
    · obtain rfl := List.mem_singleton.1 hnow
      cases hstart
  subst houter
  exact hapart _ ⟨6, 8, 18⟩ hlocate (by decide) (by decide) (by decide)

end Filler

end ArgFill
