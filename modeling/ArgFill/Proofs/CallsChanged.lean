import ArgFill.Proofs.Plain
import ArgFill.Proofs.Provenance
import Mathlib.Data.Finset.Card

/-!
# How many calls a rule book changes

An insertion notes where its call began in the text that the pass found. In the report of one pass
these places tell the calls apart. Over several passes they do not: what one pass adds moves the
calls behind it, so a call may be noted at two places, and two calls at one.

* `Marked.compose` : marks of one change laid over those of another;
* `RuleBook.stages` : the passes of a rule book, and `Reached.pass` : a pass keeps the calls, so
  each of them is followed from the first text on;
* `Stage.fillings` : the calls that a pass adds to, by number and by place;
* `callsChanged_counts` : the calls changed are counted by their places, which is their number where
  the places tell them apart;
* `callsChanged_counts_twice` : elsewhere it may not be.
-/

namespace ArgFill

/-! ## Marks over marks -/

namespace Marked

/-- The marks of a change of a text over those of the text itself: what either of them put in is
new. -/
def compose : Marked → Marked → Marked
  | _, [] => []
  | m, ⟨c, true⟩ :: later => ⟨c, true⟩ :: compose m later
  -- not reached where the second change is one of the text of the first
  | [], ⟨_, false⟩ :: _ => []
  | mark :: m, ⟨_, false⟩ :: later => mark :: compose m later

theorem text_compose {m later : Marked} (h : later.source = m.text) :
    (compose m later).text = later.text := by
  fun_induction compose m later with
  | case1 => rfl
  | case2 m c later ih => exact congrArg (c :: ·) (ih h)
  | case3 c later => cases h
  | case4 mark m c later ih =>
    obtain ⟨rfl, hrest⟩ := List.cons.inj h
    exact congrArg (mark.char :: ·) (ih hrest)

theorem source_compose {m later : Marked} (h : later.source = m.text) :
    (compose m later).source = m.source := by
  fun_induction compose m later with
  | case1 m =>
    obtain rfl : m = [] := List.map_eq_nil_iff.1 h.symm
    rfl
  | case2 m c later ih => exact ih h
  | case3 c later => cases h
  | case4 mark m c later ih =>
    have hrest := ih (List.cons.inj h).2
    unfold source at hrest ⊢
    cases hnew : mark.isNew <;> simp [hnew, hrest]

theorem compose_append {m later : Marked} (h : later.source = m.text) (m' later' : Marked) :
    compose (m ++ m') (later ++ later') = compose m later ++ compose m' later' := by
  fun_induction compose m later with
  | case1 m =>
    obtain rfl : m = [] := List.map_eq_nil_iff.1 h.symm
    rfl
  | case2 m c later ih =>
    rw [List.cons_append, compose, ih h]
    rfl
  | case3 c later => cases h
  | case4 mark m c later ih =>
    exact congrArg (mark :: ·) (ih (List.cons.inj h).2)

theorem At.compose {m later : Marked} {n k j : Nat} (hlater : later.At n k) (h : m.At k j)
    (hsame : later.source = m.text) : (Marked.compose m later).At n j := by
  obtain ⟨front, back, rfl, rfl, hk⟩ := hlater
  obtain ⟨front', back', rfl, hk', rfl⟩ := h
  rw [source_append, text_append] at hsame
  obtain ⟨hfront, hback⟩ := Text.append_inj_of_size_eq hsame (hk.trans hk'.symm)
  exact ⟨_, _, compose_append hfront back' back, congrArg Text.size (text_compose hfront),
    congrArg Text.size (source_compose hfront)⟩

end Marked

/-! ## Counting pairs -/

theorem nodup_eraseDups {α : Type} [BEq α] [LawfulBEq α] (l : List α) : l.eraseDups.Nodup := by
  generalize hlength : l.length = n
  induction n using Nat.strong_induction_on generalizing l with
  | h n ih =>
    cases l with
    | nil => exact List.nodup_nil
    | cons a l =>
      rw [List.eraseDups_cons, List.nodup_cons, List.mem_eraseDups]
      have hle := List.length_filter_le (fun b => !b == a) l
      rw [List.length_cons] at hlength
      exact ⟨by simp, ih _ (by omega) _ rfl⟩

/-- The first parts of pairs and the second ones tell the pairs apart alike. -/
def Told (pairs : List (Nat × Nat)) : Prop :=
  ∀ p ∈ pairs, ∀ q ∈ pairs, p.1 = q.1 ↔ p.2 = q.2

theorem length_eraseDups_map {f : Nat × Nat → Nat} {pairs : List (Nat × Nat)}
    (hf : ∀ p ∈ pairs, ∀ q ∈ pairs, f p = f q → p = q) :
    (pairs.map f).eraseDups.length = pairs.toFinset.card := by
  have himage : (pairs.map f).eraseDups.toFinset = pairs.toFinset.image f := by
    ext n
    simp
  rw [← List.toFinset_card_of_nodup (nodup_eraseDups _), himage]
  exact Finset.card_image_of_injOn fun p hp q hq => hf p (by simpa using hp) q (by simpa using hq)

theorem Told.length_eq {pairs : List (Nat × Nat)} (h : Told pairs) :
    (pairs.map Prod.snd).eraseDups.length = (pairs.map Prod.fst).eraseDups.length := by
  rw [length_eraseDups_map fun p hp q hq heq => Prod.ext ((h p hp q hq).2 heq) heq,
    length_eraseDups_map fun p hp q hq heq => Prod.ext heq ((h p hp q hq).1 heq)]

/-! ## Passes -/

structure Stage where
  text : Text
  report : Report
  deriving DecidableEq, Repr

namespace Stage

def starts (target : Target) (stage : Stage) : List Nat :=
  ((target.locate stage.text).toOption.getD []).map Call.start

/-- The calls that a pass adds to, by their number in the text that it found, and by where they
begin there. -/
def fillings (target : Target) (stage : Stage) : List (Nat × Nat) :=
  stage.report.insertions.map fun i => ((stage.starts target).idxOf i.callStart, i.callStart)

variable {target : Target} {stage : Stage}

theorem map_snd_fillings :
    (stage.fillings target).map Prod.snd = stage.report.insertions.map Insertion.callStart := by
  unfold fillings
  rw [List.map_map]
  rfl

theorem mem_fillings_iff (hnodup : (stage.starts target).Nodup)
    (hin : ∀ i ∈ stage.report.insertions, i.callStart ∈ stage.starts target) {n start : Nat} :
    (n, start) ∈ stage.fillings target ↔ (stage.starts target)[n]? = some start ∧
      ∃ i ∈ stage.report.insertions, i.callStart = start := by
  unfold fillings
  simp only [List.mem_map, Prod.mk.injEq]
  constructor
  · rintro ⟨i, hi, rfl, rfl⟩
    exact ⟨List.getElem?_idxOf (hin i hi), i, hi, rfl⟩
  · rintro ⟨hstart, i, hi, rfl⟩
    obtain ⟨hn, hsame⟩ := List.getElem?_eq_some_iff.1 hstart
    refine ⟨i, hi, ?_, rfl⟩
    rw [← hsame, hnodup.idxOf_getElem n hn]

theorem fst_eq_of_mem_fillings {p : Nat × Nat} (hp : p ∈ stage.fillings target) :
    p.1 = (stage.starts target).idxOf p.2 := by
  obtain ⟨i, -, rfl⟩ := List.mem_map.1 hp
  rfl

end Stage

namespace RuleBook

def stages (budget : Nat) : List Filler → Text → Except Fault (List Stage)
  | [], _ => pure []
  | filler :: rest, t => do
    let (next, report) ← filler.apply budget t
    let later ← stages budget rest next
    pure (⟨t, report⟩ :: later)

/-- The number of calls that passes add to, each told by its number. -/
def filledCalls (target : Target) (stages : List Stage) : Nat :=
  ((stages.flatMap (Stage.fillings target)).map Prod.fst).eraseDups.length

end RuleBook

/-- A pass found the calls of a text `s` as they are followed from there on. What it reports are
insertions into these, and those that it adds to are numbered as in `s`. -/
def Stage.Follows (target : Target) (s : Text) (calls : List Call) (stage : Stage) : Prop :=
  ∃ (m : Marked) (now : Call → Call), m.source = s ∧ m.text = stage.text ∧
    target.locate stage.text = .ok (calls.map now) ∧ (∀ call ∈ calls, m.Follows call (now call)) ∧
    (∀ i ∈ stage.report.insertions, ∃ call ∈ calls, i.callStart = (now call).start) ∧
    ∀ n start, (n, start) ∈ stage.fillings target ↔
      ∃ call, calls[n]? = some call ∧ start = (now call).start ∧
        ∃ i ∈ stage.report.insertions, i.callStart = start

/-- A text that is made of `s`: its calls are those of `s`, where their offsets went. -/
structure Reached (target : Target) (s : Text) (calls : List Call) (t : Text) (m : Marked)
    (g : Nat → Nat) : Prop where
  source : m.source = s
  text : m.text = t
  mono : StrictMono g
  located : target.locate t = .ok (calls.map (Call.under g))
  followed : ∀ front back, s = front ++ back → m.At (g front.size) front.size

theorem Reached.refl {target : Target} {s : Text} {calls : List Call}
    (h : target.locate s = .ok calls) : Reached target s calls s (.old s) id := by
  refine ⟨Marked.source_old s, Marked.text_old s, strictMono_id, by rwa [Call.map_under_id], ?_⟩
  rintro front back rfl
  exact ⟨.old front, .old back, Marked.old_append front back, by simp, by simp⟩

section

variable {filler : Filler} {budget : Nat} {s t u : Text} {calls : List Call} {m : Marked}
  {g : Nat → Nat} {report : Report}

/-- A pass keeps the calls. -/
theorem Reached.pass (h : Reached filler.target s calls t m g) (hinert : filler.Inert)
    (hpass : filler.apply budget t = .ok (u, report)) :
    ∃ m' g', Reached filler.target s calls u m' g' := by
  obtain ⟨later, hmarks, hlater⟩ :=
    (Filler.replays_of_apply hinert.accepted hpass).exists_marks
  obtain ⟨g', hmono, hlocated, hat⟩ := hmarks.exists_moved hinert h.located
  have hsame : later.source = m.text := hmarks.source_eq.trans h.text.symm
  refine ⟨m.compose later, g' ∘ g, (Marked.source_compose hsame).trans h.source,
    (Marked.text_compose hsame).trans hlater, hmono.comp h.mono, ?_, fun front back hsplit => ?_⟩
  · rw [← hlater, hlocated, List.map_map]
    rfl
  · -- a place is followed into the text that the pass found, and from there into what it left
    have hfirst := h.followed front back hsplit
    obtain ⟨before, behind, hm, hbefore, -⟩ := id hfirst
    have hsecond := hat before.text behind.text (by rw [← h.text, hm, Marked.text_append])
    rw [hbefore] at hsecond
    exact hsecond.compose hfirst hsame

theorem Reached.follows (h : Reached filler.target s calls t m g)
    (hlocate : filler.target.locate s = .ok calls) (haccepted : filler.refusal? = none)
    (hpass : filler.apply budget t = .ok (u, report)) :
    Stage.Follows filler.target s calls ⟨t, report⟩ := by
  have hstarts : Stage.starts filler.target ⟨t, report⟩ =
      (calls.map (Call.under g)).map Call.start := by
    unfold Stage.starts
    simp only [h.located, Except.toOption, Option.getD_some]
  have hnodup := Target.nodup_starts (Filler.isQualifiedName_of_refusal? haccepted) h.located
  have hin : ∀ i ∈ report.insertions, ∃ call ∈ calls, i.callStart = (call.under g).start := by
    intro i hi
    obtain ⟨now, hnow, hstart⟩ := Filler.exists_call_of_mem_insertions hpass h.located hi
    obtain ⟨call, hcall, rfl⟩ := List.mem_map.1 hnow
    exact ⟨call, hcall, hstart⟩
  refine ⟨m, Call.under g, h.source, h.text, h.located,
    fun call hcall => Filler.follows_under hlocate h.mono h.followed hcall, hin, fun n start => ?_⟩
  rw [← hstarts] at hnodup
  rw [Stage.mem_fillings_iff hnodup fun i hi => ?_, hstarts, List.map_map, List.getElem?_map,
    Option.map_eq_some_iff]
  · constructor
    · rintro ⟨⟨call, hcall, rfl⟩, hi⟩
      exact ⟨call, hcall, rfl, hi⟩
    · rintro ⟨call, hcall, rfl, hi⟩
      exact ⟨⟨call, hcall, rfl⟩, hi⟩
  · obtain ⟨call, hcall, hstart⟩ := hin i hi
    rw [hstarts, hstart]
    exact List.mem_map_of_mem (List.mem_map_of_mem hcall)

end

namespace RuleBook

variable {budget : Nat} {s t u : Text} {calls : List Call} {m : Marked} {g : Nat → Nat}
  {report last : Report} {target : Target}

/-- A run goes through its passes, and each of them finds the calls of the first text. -/
theorem exists_stages {fillers : List Filler}
    (hfillers : ∀ filler ∈ fillers, filler.Inert ∧ filler.target = target)
    (hlocate : target.locate s = .ok calls) (h : Reached target s calls t m g)
    (happly : applyFrom budget fillers t report = .ok (u, last)) :
    ∃ passes, stages budget fillers t = .ok passes ∧ passes.length = fillers.length ∧
      (∀ stage ∈ passes, stage.Follows target s calls) ∧
      last.insertions =
        report.insertions ++ passes.flatMap fun stage => stage.report.insertions := by
  induction fillers generalizing t report m g with
  | nil =>
    obtain ⟨rfl, rfl⟩ := Prod.mk.inj (Except.ok.inj happly)
    exact ⟨[], rfl, rfl, fun stage hstage => (nomatch hstage), by simp⟩
  | cons filler rest ih =>
    obtain ⟨⟨hinert, rfl⟩, hrest⟩ := List.forall_mem_cons.1 hfillers
    obtain ⟨next, pass, hpass, hlater⟩ := exists_of_applyFrom_cons happly
    -- what `Reached` keeps is all that the later passes need to know of this one
    obtain ⟨m', g', hnext⟩ := h.pass hinert hpass
    obtain ⟨passes, hpasses, hlength, hfollow, hinsertions⟩ := ih hrest hnext hlater
    refine ⟨⟨t, pass⟩ :: passes, ?_, congrArg (· + 1) hlength, ?_, ?_⟩
    · unfold stages
      rw [hpass]
      simp only [bind, Except.bind, hpasses]
      rfl
    · exact List.forall_mem_cons.2 ⟨h.follows hlocate hinert.accepted hpass, hfollow⟩
    · rw [hinsertions, List.flatMap_cons, ← List.append_assoc]
      rfl

end RuleBook

/-! ## When places tell calls apart -/

section

variable {target : Target} {s : Text} {calls : List Call} {stages : List Stage}

/-- The insertions of one pass tell their calls apart. -/
theorem told_of_one_adds (hfollow : ∀ stage ∈ stages, stage.Follows target s calls)
    (hone : ∀ stage ∈ stages, ∀ stage' ∈ stages, stage.report.insertions ≠ [] →
      stage'.report.insertions ≠ [] → stage = stage') :
    Told (stages.flatMap (Stage.fillings target)) := by
  intro p hp q hq
  obtain ⟨stage, hstage, hp⟩ := List.mem_flatMap.1 hp
  obtain ⟨stage', hstage', hq⟩ := List.mem_flatMap.1 hq
  have hadds : ∀ {stage : Stage} {p : Nat × Nat}, p ∈ stage.fillings target →
      stage.report.insertions ≠ [] := by
    intro stage p hp
    obtain ⟨i, hi, -⟩ := List.mem_map.1 hp
    exact List.ne_nil_of_mem hi
  obtain rfl := hone stage hstage stage' hstage' (hadds hp) (hadds hq)
  obtain ⟨m, now, -, -, -, -, -, hmem⟩ := hfollow stage hstage
  constructor
  · intro heq
    obtain ⟨call, hcall, hstart, -⟩ := (hmem p.1 p.2).1 hp
    obtain ⟨call', hcall', hstart', -⟩ := (hmem q.1 q.2).1 hq
    rw [heq, hcall'] at hcall
    rw [hstart, hstart', Option.some.inj hcall]
  · intro heq
    rw [Stage.fst_eq_of_mem_fillings hp, Stage.fst_eq_of_mem_fillings hq, heq]

theorem told_of_in_place (hnodup : (calls.map Call.start).Nodup)
    (hplace : ∀ stage ∈ stages, ∀ p ∈ stage.fillings target,
      (calls.map Call.start)[p.1]? = some p.2) :
    Told (stages.flatMap (Stage.fillings target)) := by
  intro p hp q hq
  obtain ⟨stage, hstage, hp⟩ := List.mem_flatMap.1 hp
  obtain ⟨stage', hstage', hq⟩ := List.mem_flatMap.1 hq
  have hfirst := hplace stage hstage p hp
  have hsecond := hplace stage' hstage' q hq
  constructor
  · intro heq
    rw [heq, hsecond] at hfirst
    exact (Option.some.inj hfirst).symm
  · intro heq
    have hlt := (List.getElem?_eq_some_iff.1 hfirst).1
    exact (List.getElem?_inj hlt hnodup).1 (by rw [hfirst, hsecond, heq])

end

/-- **The calls changed are counted by place.** Every pass of profiles for one construct, with round
brackets and plain literals, finds the calls of the first text, and each of them is followed. The
calls changed are the places at which calls stood when something was added to them. Where the places
tell the calls apart, that is the number of calls that something was added to. They do so if at most
one pass adds something, and if each call that a pass adds to stands where it stood at first. -/
theorem callsChanged_counts {profiles : List Profile} {book : RuleBook} {construct : Text}
    (hbook : RuleBook.ofProfiles profiles = .ok book) (hne : profiles ≠ [])
    (hplain : ∀ profile ∈ profiles, profile.construct = construct ∧ profile.brackets = .round ∧
      ∀ rule ∈ profile.rules, ∀ c ∈ rule.literal, isPlain c = true)
    {budget : Nat} {t u : Text} {report : Report} (h : book.apply budget t = .ok (u, report)) :
    let target : Target := ⟨construct, .round⟩
    ∃ calls stages, target.locate t = .ok calls ∧
      RuleBook.stages budget book.fillers t = .ok stages ∧ stages.length = profiles.length ∧
      (∀ stage ∈ stages, stage.Follows target t calls) ∧
      report.callsChanged =
        ((stages.flatMap (Stage.fillings target)).map Prod.snd).eraseDups.length ∧
      (Told (stages.flatMap (Stage.fillings target)) →
        report.callsChanged = RuleBook.filledCalls target stages) ∧
      ((∀ stage ∈ stages, ∀ stage' ∈ stages, stage.report.insertions ≠ [] →
          stage'.report.insertions ≠ [] → stage = stage') →
        Told (stages.flatMap (Stage.fillings target))) ∧
      ((∀ stage ∈ stages, ∀ p ∈ stage.fillings target,
          (calls.map Call.start)[p.1]? = some p.2) →
        Told (stages.flatMap (Stage.fillings target))) := by
  intro target
  have hmapped := RuleBook.mapM_filler_of_ofProfiles hbook
  have hfillers : ∀ filler ∈ book.fillers, filler.Inert ∧ filler.target = target := by
    intro filler hfiller
    obtain ⟨profile, hprofile, hfill⟩ := RuleBook.exists_profile_of_mem hmapped hfiller
    obtain ⟨rfl, haccepted⟩ := RuleBook.eq_of_profile_filler hfill
    obtain ⟨hconstruct, hround, hliterals⟩ := hplain profile hprofile
    exact ⟨Filler.Plain.inert ⟨haccepted, hround, hliterals⟩, by rw [hconstruct, hround]⟩
  have hlength := (RuleBook.forall₂_of_mapM_filler hmapped).length_eq
  obtain ⟨filler, rest, hsplit⟩ := List.exists_cons_of_ne_nil (l := book.fillers) fun hnil => by
    rw [hnil] at hlength
    exact hne (List.length_eq_zero_iff.1 hlength)
  obtain ⟨calls, hlocate⟩ : ∃ calls, target.locate t = .ok calls := by
    have happly : RuleBook.applyFrom budget (filler :: rest) t .empty = .ok (u, report) :=
      hsplit ▸ h
    obtain ⟨next, pass, hpass, -⟩ := RuleBook.exists_of_applyFrom_cons happly
    rw [← (hfillers filler (hsplit ▸ List.mem_cons_self)).2]
    exact Filler.exists_locate_of_apply hpass
  obtain ⟨stages, hstages, hcount, hfollow, hinsertions⟩ :=
    RuleBook.exists_stages hfillers hlocate (.refl hlocate) h
  have hplaces : report.insertions.map Insertion.callStart =
      (stages.flatMap (Stage.fillings target)).map Prod.snd := by
    rw [hinsertions, List.map_flatMap]
    simp only [Stage.map_snd_fillings]
    exact List.map_flatMap
  have hchanged : report.callsChanged =
      ((stages.flatMap (Stage.fillings target)).map Prod.snd).eraseDups.length := by
    unfold Report.callsChanged
    rw [hplaces]
  have haccepted := (hfillers filler (hsplit ▸ List.mem_cons_self)).1.accepted
  have hname := Filler.isQualifiedName_of_refusal? haccepted
  rw [(hfillers filler (hsplit ▸ List.mem_cons_self)).2] at hname
  exact ⟨calls, stages, hlocate, hstages, hcount.trans hlength.symm, hfollow, hchanged,
    fun htold => hchanged.trans htold.length_eq, told_of_one_adds hfollow,
    told_of_in_place (Target.nodup_starts hname hlocate)⟩

theorem callsChanged_counts_sample :
    let profiles : List Profile :=
      [⟨['P'], .none, .round, [⟨['k'], ['a'], ['1']⟩]⟩,
        ⟨['P'], .none, .round, [⟨['j'], ['b'], ['2']⟩]⟩]
    let target : Target := ⟨['P'], .round⟩
    let book : RuleBook :=
      ⟨[⟨target, [⟨['k'], ['a'], ['1']⟩], .none⟩, ⟨target, [⟨['j'], ['b'], ['2']⟩], .none⟩]⟩
    let t := "P(a: 0,) P(b: 0,)".toList
    let u := "P(a: 0,\nk: 1,) P(b: 0,\nj: 2,)".toList
    let report : Report := ⟨['P'], 4, [⟨0, 7, ['k']⟩, ⟨15, 22, ['j']⟩],
      [⟨9, ['k'], ['a']⟩, ⟨0, ['j'], ['b']⟩]⟩
    let stages : List Stage :=
      [⟨t, ⟨['P'], 2, [⟨0, 7, ['k']⟩], [⟨9, ['k'], ['a']⟩]⟩⟩,
        ⟨"P(a: 0,\nk: 1,) P(b: 0,)".toList,
          ⟨['P'], 2, [⟨15, 22, ['j']⟩], [⟨0, ['j'], ['b']⟩]⟩⟩]
    RuleBook.ofProfiles profiles = .ok book ∧ profiles ≠ [] ∧
    (∀ profile ∈ profiles, profile.construct = ['P'] ∧ profile.brackets = .round ∧
      ∀ rule ∈ profile.rules, ∀ c ∈ rule.literal, isPlain c = true) ∧
    book.apply 3 t = .ok (u, report) ∧ RuleBook.stages 3 book.fillers t = .ok stages ∧
    stages.flatMap (Stage.fillings target) = [(0, 0), (1, 15)] ∧
    report.callsChanged = RuleBook.filledCalls target stages := by
  intro profiles target book t u report stages
  have hbook : RuleBook.ofProfiles profiles = .ok book := by rfl
  have hplain : ∀ profile ∈ profiles, profile.construct = ['P'] ∧ profile.brackets = .round ∧
      ∀ rule ∈ profile.rules, ∀ c ∈ rule.literal, isPlain c = true :=
    List.forall_mem_cons.2
      ⟨⟨rfl, rfl, List.forall_mem_singleton.2 (List.forall_mem_singleton.2 (by decide))⟩,
        List.forall_mem_singleton.2
          ⟨rfl, rfl, List.forall_mem_singleton.2 (List.forall_mem_singleton.2 (by decide))⟩⟩
  have h : book.apply 3 t = .ok (u, report) := by rfl
  have hstages : RuleBook.stages 3 book.fillers t = .ok stages := by rfl
  have hfillings : stages.flatMap (Stage.fillings target) = [(0, 0), (1, 15)] := by rfl
  have htold : Told [(0, 0), (1, 15)] := by
    unfold Told
    decide
  obtain ⟨calls, stages', -, hstages', -, -, -, hcounts, -⟩ :=
    callsChanged_counts hbook (List.cons_ne_nil _ _) hplain h
  obtain rfl := Except.ok.inj (hstages.symm.trans hstages')
  exact ⟨hbook, List.cons_ne_nil _ _, hplain, h, hstages, hfillings, hcounts (hfillings ▸ htold)⟩

/-- One call can be counted twice. Both passes add something to both calls. The first pass moves
the second call from byte 9 to byte 15, so that three places are counted for two calls. -/
theorem callsChanged_counts_twice :
    let profiles : List Profile :=
      [⟨['P'], .none, .round, [⟨['k'], ['a'], ['1']⟩]⟩,
        ⟨['P'], .none, .round, [⟨['j'], ['a'], ['2']⟩]⟩]
    let target : Target := ⟨['P'], .round⟩
    let book : RuleBook :=
      ⟨[⟨target, [⟨['k'], ['a'], ['1']⟩], .none⟩, ⟨target, [⟨['j'], ['a'], ['2']⟩], .none⟩]⟩
    let t := "P(a: 0,) P(a: 0,)".toList
    let u := "P(a: 0,\nj: 2,\nk: 1,) P(a: 0,\nj: 2,\nk: 1,)".toList
    let report : Report :=
      ⟨['P'], 4, [⟨9, 16, ['k']⟩, ⟨0, 7, ['k']⟩, ⟨15, 22, ['j']⟩, ⟨0, 7, ['j']⟩], []⟩
    let stages : List Stage :=
      [⟨t, ⟨['P'], 2, [⟨9, 16, ['k']⟩, ⟨0, 7, ['k']⟩], []⟩⟩,
        ⟨"P(a: 0,\nk: 1,) P(a: 0,\nk: 1,)".toList,
          ⟨['P'], 2, [⟨15, 22, ['j']⟩, ⟨0, 7, ['j']⟩], []⟩⟩]
    RuleBook.ofProfiles profiles = .ok book ∧ profiles ≠ [] ∧
    (∀ profile ∈ profiles, profile.construct = ['P'] ∧ profile.brackets = .round ∧
      ∀ rule ∈ profile.rules, ∀ c ∈ rule.literal, isPlain c = true) ∧
    book.apply 3 t = .ok (u, report) ∧ RuleBook.stages 3 book.fillers t = .ok stages ∧
    stages.flatMap (Stage.fillings target) = [(1, 9), (0, 0), (1, 15), (0, 0)] ∧
    target.locate t = .ok [⟨0, 2, 7⟩, ⟨9, 11, 16⟩] ∧ report.callsChanged = 3 ∧
    RuleBook.filledCalls target stages = 2 := by
  intro profiles target book t u report stages
  have hplain : ∀ profile ∈ profiles, profile.construct = ['P'] ∧ profile.brackets = .round ∧
      ∀ rule ∈ profile.rules, ∀ c ∈ rule.literal, isPlain c = true :=
    List.forall_mem_cons.2
      ⟨⟨rfl, rfl, List.forall_mem_singleton.2 (List.forall_mem_singleton.2 (by decide))⟩,
        List.forall_mem_singleton.2
          ⟨rfl, rfl, List.forall_mem_singleton.2 (List.forall_mem_singleton.2 (by decide))⟩⟩
  have hbook : RuleBook.ofProfiles profiles = .ok book := by rfl
  have h : book.apply 3 t = .ok (u, report) := by rfl
  have hstages : RuleBook.stages 3 book.fillers t = .ok stages := by rfl
  have hfillings : stages.flatMap (Stage.fillings target) = [(1, 9), (0, 0), (1, 15), (0, 0)] := by
    rfl
  have hcalls : RuleBook.filledCalls target stages = 2 := by
    unfold RuleBook.filledCalls
    rw [hfillings]
    rfl
  exact ⟨hbook, List.cons_ne_nil _ _, hplain, h, hstages, hfillings, by rfl, rfl, hcalls⟩

end ArgFill
