import ArgFill.FileRun
import ArgFill.Proofs.Invariant
import ArgFill.Proofs.RuleBook
import Mathlib.Data.List.Nodup

/-!
# Reports replay runs

What a run did to a text stands in its report. The insertions of the report, carried out one after
the other, each in the text as the one before left it, lead from the text to the result.

* `Filler.Puts` : one insertion of a run;
* `Filler.Replays` : all insertions of a report, and `replays_of_apply` : they lead to the result;
* `Filler.replay?` : an insertion carried out by what the report says about it. That is all there is
  to know if no two rules have one key and nothing is indented;
* `report_replays_run` : the report gives the result back, and a run changed its text exactly if its
  report has an insertion.
-/

namespace ArgFill

namespace Filler

/-- A rule adds its argument to a text, right behind a comma and indented as the filler does it
there. The insertion notes where, and the key. -/
inductive Puts (filler : Filler) : Text → Insertion → Text → Prop
  | behindComma {front back indent : Text} {rule : Rule} (callStart : Nat)
      (hrule : rule ∈ filler.rules)
      (hindent : filler.indentation (front ++ ',' :: back) (front.size + 1) = .ok indent) :
      Puts filler (front ++ ',' :: back) ⟨callStart, front.size + 1, rule.key⟩
        (front ++ ',' :: (rule.insertion indent ++ back))

inductive Replays (filler : Filler) (t : Text) : List Insertion → Text → Prop
  | none : Replays filler t [] t
  | snoc {insertions : List Insertion} {i : Insertion} {u v : Text}
      (h : Replays filler t insertions u) (hput : filler.Puts u i v) :
      Replays filler t (insertions ++ [i]) v

/-- Carries out an insertion by its offset and key, without indentation. -/
def replay? (filler : Filler) (t : Text) (i : Insertion) : Option Text := do
  let rule ← filler.rules.find? fun rule => rule.key == i.key
  t.insert? i.offset (rule.insertion [])

variable {filler : Filler} {budget : Nat} {t u : Text}

/-! ## Runs -/

theorem exists_comma_of_slot {call : Call} {rule : Rule} (hanchor : rule.anchor.isName = true)
    {offset : Nat} (h : slot t call rule = .ok offset) :
    ∃ front back, t = front ++ ',' :: back ∧ offset = front.size + 1 := by
  obtain ⟨args, place, hargs, hplace, rfl⟩ := exists_place_of_slot h
  obtain ⟨front, back, rfl, hfront, -⟩ := Text.between?_eq_some_iff.1 hargs
  obtain ⟨x, y, rfl, rfl, -⟩ := Text.slot?_eq_some hanchor hplace
  refine ⟨front ++ x, y ++ back, by simp, ?_⟩
  rw [Text.size_append]
  omega

/-- What is put in at a slot is put in right behind a comma. -/
theorem puts_of_slot (haccepted : filler.refusal? = none) {rule : Rule} (hrule : rule ∈ filler.rules)
    {call : Call} {offset : Nat} (hslot : slot t call rule = .ok offset) {indent : Text}
    (hindent : filler.indentation t offset = .ok indent)
    (hinsert : t.insert? offset (rule.insertion indent) = some u) (callStart : Nat) :
    filler.Puts t ⟨callStart, offset, rule.key⟩ u := by
  obtain ⟨front, back, rfl, rfl⟩ := exists_comma_of_slot (isName_of_refusal? haccepted hrule).2 hslot
  obtain ⟨before, behind, hparts, hsize, rfl⟩ := Text.insert?_eq_some_iff.1 hinsert
  obtain ⟨rfl, rfl⟩ : before = front ++ [','] ∧ behind = back := by
    refine Text.append_inj_of_size_eq (hparts.symm.trans (by simp)) ?_
    rw [hsize, Text.size_append]
    rfl
  simpa using Puts.behindComma callStart hrule hindent

theorem puts_of_turn (haccepted : filler.refusal? = none) {call : Call} {out : List Rule}
    {p next : Progress} (h : filler.turn call out p = .ok (.added next)) :
    ∃ i, filler.Puts p.text i next.text ∧ next.insertions = p.insertions ++ [i] := by
  cases adds_of_turn h with
  | put hrule _ _ _ hslot hindent hinsert =>
    exact ⟨_, puts_of_slot haccepted hrule hslot hindent hinsert call.start, rfl⟩

/-- A step leaves the text and the insertions as they are, or adds one argument and notes it. -/
theorem Step.puts (haccepted : filler.refusal? = none) {s s' : State}
    (h : filler.Step budget s s') :
    s'.progress.text = s.progress.text ∧ s'.progress.insertions = s.progress.insertions ∨
      ∃ i, filler.Puts s.progress.text i s'.progress.text ∧
        s'.progress.insertions = s.progress.insertions ++ [i] := by
  cases h with
  | settled => exact Or.inl ⟨rfl, rfl⟩
  | leftOut hturn =>
    obtain rfl := eq_leave_of_turn hturn
    exact Or.inl ⟨rfl, rfl⟩
  | added hturn => exact Or.inr (puts_of_turn haccepted hturn)

theorem Run.replays (haccepted : filler.refusal? = none) {first last : State}
    (h : filler.Run budget first last) (hfirst : first.progress.insertions = []) :
    filler.Replays first.progress.text last.progress.insertions last.progress.text := by
  induction h with
  | refl =>
    rw [hfirst]
    exact .none
  | tail _ hstep ih =>
    rcases hstep.puts haccepted with ⟨htext, hins⟩ | ⟨i, hput, hins⟩
    · rw [htext, hins]
      exact ih
    · rw [hins]
      exact ih.snoc hput

/-- The insertions of a report lead from the text to the result. -/
theorem replays_of_apply (haccepted : filler.refusal? = none) {report : Report}
    (h : filler.apply budget t = .ok (u, report)) : filler.Replays t report.insertions u := by
  obtain ⟨calls, p, -, ⟨-, rfl⟩ | hrun, rfl, rfl⟩ := apply_run h
  · exact .none
  · exact hrun.replays haccepted rfl

/-! ## Texts grow -/

theorem Puts.size_lt {i : Insertion} (h : filler.Puts t i u) : t.size < u.size := by
  cases h with
  | behindComma =>
    have hsize : 0 < ','.utf8Size := Char.utf8Size_pos ','
    simp only [Rule.insertion, Text.size_append, Text.size_cons]
    omega

theorem Replays.size_le {insertions : List Insertion} (h : filler.Replays t insertions u) :
    t.size + insertions.length ≤ u.size := by
  induction h with
  | none => exact Nat.le_refl _
  | snoc _ hput ih =>
    have := hput.size_lt
    rw [List.length_append, List.length_singleton]
    omega

theorem Replays.eq_of_nil (h : filler.Replays t [] u) : u = t := by
  generalize hnil : ([] : List Insertion) = insertions at h
  cases h with
  | none => rfl
  | snoc => simp at hnil

/-! ## By the report alone -/

theorem find?_key (hkeys : (filler.rules.map Rule.key).Nodup) {rule : Rule}
    (hrule : rule ∈ filler.rules) :
    (filler.rules.find? fun r => r.key == rule.key) = some rule := by
  cases hfind : filler.rules.find? fun r => r.key == rule.key with
  | none =>
    rw [List.find?_eq_none] at hfind
    simpa using hfind rule hrule
  | some r =>
    have hkey : r.key = rule.key := by simpa using List.find?_some hfind
    rw [List.inj_on_of_nodup_map hkeys (List.mem_of_find?_eq_some hfind) hrule hkey]

theorem Puts.replay? (hindent : filler.indent = .none) (hkeys : (filler.rules.map Rule.key).Nodup)
    {i : Insertion} (h : filler.Puts t i u) : filler.replay? t i = some u := by
  cases h with
  | @behindComma front back indent rule callStart hrule hplace =>
    rw [indentation, hindent] at hplace
    obtain rfl : [] = indent := Except.ok.inj hplace
    rw [Filler.replay?, find?_key hkeys hrule]
    refine Text.insert?_eq_some_iff.2 ⟨front ++ [','], back, by simp, ?_, by simp⟩
    rw [Text.size_append]
    rfl

theorem Replays.foldlM_replay? (hindent : filler.indent = .none)
    (hkeys : (filler.rules.map Rule.key).Nodup) {insertions : List Insertion}
    (h : filler.Replays t insertions u) : insertions.foldlM filler.replay? t = some u := by
  induction h with
  | none => rfl
  | snoc _ hput ih =>
    rw [List.foldlM_append, ih]
    simp [hput.replay? hindent hkeys]

end Filler

/-! ## Rule books -/

namespace RuleBook

variable {budget : Nat} {t u : Text} {report last : Report}

/-- Each pass adds its insertions to the report and as many bytes or more to the text. -/
theorem exists_of_applyFrom {fillers : List Filler}
    (haccepted : ∀ filler ∈ fillers, filler.refusal? = none)
    (h : applyFrom budget fillers t report = .ok (u, last)) :
    ∃ added, last.insertions = report.insertions ++ added ∧ t.size + added.length ≤ u.size ∧
      (added = [] → u = t) := by
  induction fillers generalizing t report with
  | nil =>
    obtain ⟨rfl, rfl⟩ := Prod.mk.inj (Except.ok.inj h)
    exact ⟨[], by simp, Nat.le_refl _, fun _ => rfl⟩
  | cons filler rest ih =>
    obtain ⟨next, pass, hpass, hrest⟩ := exists_of_applyFrom_cons h
    obtain ⟨added, hadded, hsize, hsame⟩ :=
      ih (fun f hf => haccepted f (List.mem_cons_of_mem _ hf)) hrest
    have hreplays := Filler.replays_of_apply (haccepted filler List.mem_cons_self) hpass
    refine ⟨pass.insertions ++ added, by rw [hadded, ← List.append_assoc]; rfl, ?_, fun hnil => ?_⟩
    · have := hreplays.size_le
      rw [List.length_append]
      omega
    · obtain ⟨hpassed, hlater⟩ := List.append_eq_nil_iff.1 hnil
      rw [hpassed] at hreplays
      exact (hsame hlater).trans hreplays.eq_of_nil

theorem apply_ne_iff {profiles : List Profile} {book : RuleBook}
    (hbook : ofProfiles profiles = .ok book) (h : book.apply budget t = .ok (u, report)) :
    u ≠ t ↔ report.insertions ≠ [] := by
  obtain ⟨added, hadded, hsize, hsame⟩ :=
    exists_of_applyFrom (fun filler hfiller => refusal?_eq_none_of_mem hbook hfiller) h
  obtain rfl : report.insertions = added := hadded
  constructor
  · exact fun hne hnil => hne (hsame hnil)
  · rintro hne rfl
    have := List.length_pos_iff.2 hne
    omega

end RuleBook

theorem exists_apply_of_processFile {book : RuleBook} {mode : Mode} {name : Text}
    {folder after : Folder} {outcome : Outcome}
    (h : processFile book mode name folder = .ok (outcome, after)) :
    ∃ source filled, folder.read name = .ok source ∧
      book.apply Filler.defaultBudget source = .ok (filled, outcome.report) ∧
      outcome.changed = (filled != source) := by
  cases hread : folder.read name with
  | error why =>
    rw [processFile, hread] at h
    cases h
  | ok source =>
    cases happly : book.apply Filler.defaultBudget source with
    | error why =>
      simp only [processFile, hread, happly] at h
      cases h
    | ok result =>
      obtain ⟨filled, report⟩ := result
      simp only [processFile, hread, happly] at h
      obtain ⟨rfl, -⟩ := Prod.mk.inj (Except.ok.inj h)
      exact ⟨source, filled, rfl, happly, rfl⟩

/-- **The report of a run replays it.** Without indentation, and where every rule has a key of its
own, the insertions of the report rebuild the result from the text, each at a character boundary of
what is there by then. A file is told to change exactly if its report has an insertion, whatever
the rule book. -/
theorem report_replays_run :
    (∀ (filler : Filler) (budget : Nat) (t u : Text) (report : Report), filler.refusal? = none →
      filler.indent = .none → (filler.rules.map Rule.key).Nodup →
      filler.apply budget t = .ok (u, report) →
        report.insertions.foldlM filler.replay? t = some u) ∧
    ∀ (profiles : List Profile) (book : RuleBook) (mode : Mode) (name : Text)
      (folder after : Folder) (outcome : Outcome), RuleBook.ofProfiles profiles = .ok book →
      processFile book mode name folder = .ok (outcome, after) →
        ∃ source filled, folder.read name = .ok source ∧
          book.apply Filler.defaultBudget source = .ok (filled, outcome.report) ∧
          outcome.changed = (filled != source) ∧
          (filled ≠ source ↔ outcome.report.insertions ≠ []) := by
  refine ⟨fun filler budget t u report haccepted hindent hkeys h =>
    (Filler.replays_of_apply haccepted h).foldlM_replay? hindent hkeys,
    fun profiles book mode name folder after outcome hbook h => ?_⟩
  obtain ⟨source, filled, hread, happly, hchanged⟩ := exists_apply_of_processFile h
  exact ⟨source, filled, hread, happly, hchanged, RuleBook.apply_ne_iff hbook happly⟩

/-- A report with three insertions in nested calls, and a file whose report has one, made for the
second of two rules with one key. -/
theorem report_replays_run_sample :
    let t := "P(a: 0,) P(a: P(z: 0,),)".toList
    let u := "P(a: 0,\nb: 1,) P(a: P(z: 0,\nd: 2,),\nb: 1,)".toList
    let report : Report := ⟨['P'], 3, [⟨14, 21, ['d']⟩, ⟨9, 29, ['b']⟩, ⟨0, 7, ['b']⟩],
      [⟨14, ['b'], ['a']⟩, ⟨0, ['d'], ['z']⟩]⟩
    let profiles : List Profile :=
      [⟨['Q'], .matchAnchor, ⟨'[', ']'⟩, [⟨['c'], ['z'], ['1']⟩, ⟨['c'], ['a'], ['2']⟩]⟩]
    let book : RuleBook := ⟨[⟨⟨['Q'], ⟨'[', ']'⟩⟩, [⟨['c'], ['z'], ['1']⟩, ⟨['c'], ['a'], ['2']⟩],
      .matchAnchor⟩]⟩
    let folder : Folder := ⟨[(['f'], .text "Q[\n  a: 0,]".toList)]⟩
    let outcome : Outcome :=
      ⟨['f'], true, ⟨['Q'], 1, [⟨0, 10, ['c']⟩], [⟨0, ['c'], ['z']⟩]⟩, none⟩
    Filler.sample.refusal? = none ∧ Filler.sample.indent = .none ∧
    (Filler.sample.rules.map Rule.key).Nodup ∧ Filler.sample.apply 3 t = .ok (u, report) ∧
    report.insertions.foldlM Filler.sample.replay? t = some u ∧
    RuleBook.ofProfiles profiles = .ok book ∧
    processFile book .check ['f'] folder = .ok (outcome, folder) ∧
    ∃ source filled, folder.read ['f'] = .ok source ∧
      book.apply Filler.defaultBudget source = .ok (filled, outcome.report) ∧
      outcome.changed = (filled != source) ∧
      (filled ≠ source ↔ outcome.report.insertions ≠ []) := by
  intro t u report profiles book folder outcome
  have haccepted : Filler.sample.refusal? = none := by decide +kernel
  have hkeys : (Filler.sample.rules.map Rule.key).Nodup := by decide
  have happly : Filler.sample.apply 3 t = .ok (u, report) := by rfl
  have hbook : RuleBook.ofProfiles profiles = .ok book := by rfl
  have hfile : processFile book .check ['f'] folder = .ok (outcome, folder) := by rfl
  exact ⟨haccepted, rfl, hkeys, happly,
    report_replays_run.1 Filler.sample 3 t u report haccepted rfl hkeys happly, hbook, hfile,
    report_replays_run.2 profiles book .check ['f'] folder folder outcome hbook hfile⟩

end ArgFill
