import ArgFill.Proofs.Names
import ArgFill.Proofs.RuleBook
import ArgFill.Proofs.Run
import Mathlib.Data.List.Flatten
import Mathlib.Data.List.TakeWhile

/-!
# A rule book in parts

The first profiles of a rule book can be run by themselves, and the others on the text that these
leave. Text, faults, counts and lists are those of a run of all profiles; only the label may differ.
A report is folded pass by pass: a pass over the construct that is the whole label so far adds
nothing to the label, and the label of a second part is not one pass.

* `Report.label` : the label of passes over some constructs, and `foldl_joinConstructs` : it is what
  the folding makes;
* `Report.Joins` : when two labels join to the label of all passes, and `joinConstructs_label_iff` :
  it is then and only then;
* `RuleBook.applyFrom_eq` : a run with a report so far, in terms of a run without;
* `RuleBook.apply_parts` : a rule book in two parts.
-/

namespace ArgFill

namespace Report

/-! ## Labels -/

def listed (constructs : List Text) : Text := constructs.flatMap (',' :: ·)

/-- The label of passes over some constructs: the first one is named once for all the passes that it
begins with, each later pass names its own. -/
def label : List Text → Text
  | [] => []
  | c :: cs => c ++ listed (cs.dropWhile (· == c))

/-- Two parts whose labels join to the label of all their passes. Either all passes are over one
construct. Or the first part has a construct other than the one that the second begins with, the
second does not begin with one construct twice, and the labels differ. -/
inductive Joins (first second : List Text) : Prop
  | one (c : Text) (h : ∀ d ∈ first ++ second, d = c)
  | apart (hfirst : ∃ c ∈ first, some c ≠ second[0]?) (hsecond : second[0]? ≠ second[1]?)
      (hlabels : label first ≠ label second)

theorem label_cons (c : Text) (cs : List Text) :
    label (c :: cs) = c ++ listed (cs.dropWhile (· == c)) := rfl

theorem joinConstructs_self (c : Text) : joinConstructs c c = c := by
  simp [joinConstructs]

theorem joinConstructs_of_ne {first second : Text} (hfirst : first ≠ []) (hsecond : second ≠ [])
    (hne : second ≠ first) : joinConstructs first second = first ++ ',' :: second := by
  simp [joinConstructs, hfirst, hsecond, hne]

@[simp] theorem listed_nil : listed [] = [] := rfl

@[simp] theorem listed_cons (c : Text) (cs : List Text) :
    listed (c :: cs) = ',' :: (c ++ listed cs) :=
  List.flatMap_cons

@[simp] theorem listed_append (as bs : List Text) : listed (as ++ bs) = listed as ++ listed bs :=
  List.flatMap_append

/-- Of two lists, one within the other, each makes a label of its own. -/
theorem listed_inj_of_sublist {as bs : List Text} (h : as.Sublist bs) :
    listed as = listed bs ↔ as = bs := by
  refine ⟨fun heq => ?_, congrArg listed⟩
  induction h with
  | slnil => rfl
  | @cons as bs c hsub =>
    have hle : (listed as).length ≤ (listed bs).length := (hsub.flatMap (',' :: ·)).length_le
    rw [heq, listed_cons, List.length_cons, List.length_append] at hle
    omega
  | cons_cons c _ ih =>
    rw [listed_cons, listed_cons, List.cons_inj_right, List.append_right_inj] at heq
    rw [ih heq]

section

variable {c p q : Text} {cs ps qs : List Text}

theorem foldl_joinConstructs_of_comma {acc : Text} (hacc : ',' ∈ acc)
    (hcs : ∀ d ∈ cs, d.isQualifiedName = true) :
    cs.foldl joinConstructs acc = acc ++ listed cs := by
  induction cs generalizing acc with
  | nil => simp
  | cons d cs ih =>
    obtain ⟨hd, hrest⟩ := List.forall_mem_cons.1 hcs
    have hne : d ≠ acc := by
      rintro rfl
      exact Text.not_mem_of_isQualifiedName hd isNameChar_comma (by decide) hacc
    rw [List.foldl_cons, joinConstructs_of_ne (List.ne_nil_of_mem hacc)
      (Text.ne_nil_of_isQualifiedName hd) hne, ih (List.mem_append_left _ hacc) hrest]
    simp

theorem foldl_joinConstructs (hc : c.isQualifiedName = true)
    (hcs : ∀ d ∈ cs, d.isQualifiedName = true) : cs.foldl joinConstructs c = label (c :: cs) := by
  induction cs with
  | nil => simp [label]
  | cons d cs ih =>
    obtain ⟨hd, hrest⟩ := List.forall_mem_cons.1 hcs
    rw [List.foldl_cons]
    by_cases heq : d = c
    · subst heq
      rw [joinConstructs_self, ih hrest]
      rw [label_cons, label_cons, List.dropWhile_cons, if_pos (beq_self_eq_true d)]
    · rw [joinConstructs_of_ne (Text.ne_nil_of_isQualifiedName hc)
        (Text.ne_nil_of_isQualifiedName hd) heq, foldl_joinConstructs_of_comma (by simp) hrest,
        label_cons,
        List.dropWhile_cons_of_neg (by simpa using heq)]
      simp

theorem label_of_forall (h : ∀ d ∈ p :: ps, d = c) : label (p :: ps) = c := by
  obtain ⟨rfl, hrest⟩ := List.forall_mem_cons.1 h
  rw [label_cons, List.dropWhile_eq_nil_iff.2 fun d hd => by simpa using hrest d hd, listed_nil,
    List.append_nil]

theorem dropWhile_parts : (ps ++ q :: qs).dropWhile (· == p) =
    if ∀ d ∈ ps, d = p then (q :: qs).dropWhile (· == p)
    else ps.dropWhile (· == p) ++ q :: qs := by
  rw [List.dropWhile_append]
  split
  · next h =>
    rw [List.isEmpty_iff, List.dropWhile_eq_nil_iff] at h
    rw [if_pos fun d hd => by simpa using h d hd]
  · next h =>
    rw [List.isEmpty_iff, List.dropWhile_eq_nil_iff] at h
    rw [if_neg fun hall => h fun d hd => by simpa using hall d hd]

/-- Equal labels are that of all passes only if these are over one construct. -/
theorem label_append_of_eq :
    label (p :: ps) = label (p :: ps ++ q :: qs) ↔ ∀ d ∈ ps ++ q :: qs, d = p := by
  rw [List.cons_append, label_cons, label_cons, List.append_right_inj, dropWhile_parts]
  split
  · next hall =>
    have hnil : ps.dropWhile (· == p) = [] :=
      List.dropWhile_eq_nil_iff.2 fun d hd => by simpa using hall d hd
    rw [hnil, listed_inj_of_sublist (List.nil_sublist _), eq_comm, List.dropWhile_eq_nil_iff,
      List.forall_mem_append]
    exact ⟨fun h => ⟨hall, fun d hd => by simpa using h d hd⟩,
      fun h d hd => by simpa using h.2 d hd⟩
  · next hall =>
    rw [listed_inj_of_sublist (List.sublist_append_left _ _)]
    exact iff_of_false (by simp) fun h => hall fun d hd => h d (List.mem_append_left _ hd)

/-- Different labels join to that of all passes if the second one leaves out no pass, and its first
pass adds to the first part. -/
theorem label_append_of_ne :
    label (p :: ps) ++ ',' :: label (q :: qs) = label (p :: ps ++ q :: qs) ↔
      (∃ d ∈ p :: ps, d ≠ q) ∧ qs.dropWhile (· == q) = qs := by
  have hjoined : label (p :: ps) ++ ',' :: label (q :: qs) =
      p ++ listed (ps.dropWhile (· == p) ++ q :: qs.dropWhile (· == q)) := by
    simp [label_cons]
  have hleads : (q :: qs.dropWhile (· == q)).Sublist (q :: qs) :=
    (List.dropWhile_suffix _).sublist.cons_cons q
  rw [hjoined, List.cons_append, label_cons, List.append_right_inj, dropWhile_parts]
  split
  · next hall =>
    have hnil : ps.dropWhile (· == p) = [] :=
      List.dropWhile_eq_nil_iff.2 fun d hd => by simpa using hall d hd
    rw [hnil, List.nil_append]
    by_cases hpq : q = p
    · subst hpq
      rw [List.dropWhile_cons, if_pos (beq_self_eq_true q), eq_comm,
        listed_inj_of_sublist (List.sublist_cons_self _ _)]
      refine iff_of_false (by simp) ?_
      rintro ⟨⟨d, hd, hne⟩, -⟩
      rcases List.mem_cons.1 hd with rfl | hd
      · exact hne rfl
      · exact hne (hall d hd)
    · rw [List.dropWhile_cons_of_neg (by simpa using hpq), listed_inj_of_sublist hleads,
        List.cons_inj_right]
      exact ⟨fun h => ⟨⟨p, List.mem_cons_self, fun heq => hpq heq.symm⟩, h⟩, fun h => h.2⟩
  · next hall =>
    rw [listed_inj_of_sublist (hleads.append_left _), List.append_right_inj, List.cons_inj_right]
    refine ⟨fun h => ⟨?_, h⟩, fun h => h.2⟩
    -- of two constructs one is not that of the second part
    by_contra hnone
    have hsame : ∀ d ∈ p :: ps, d = q := by simpa using hnone
    refine hall fun d hd => ?_
    rw [hsame d (List.mem_cons_of_mem p hd), hsame p List.mem_cons_self]

theorem dropWhile_eq_self_iff_ne : qs.dropWhile (· == q) = qs ↔ some q ≠ qs[0]? := by
  rw [List.dropWhile_eq_self_iff]
  cases qs with
  | nil => simp
  | cons d qs =>
    constructor
    · intro h heq
      exact h (Nat.zero_lt_succ _) (beq_iff_eq.2 (Option.some.inj heq).symm)
    · intro h _ heq
      exact h (congrArg some (beq_iff_eq.1 heq).symm)

end

theorem joinConstructs_label_iff {first second : List Text}
    (hfirst : ∀ c ∈ first, c.isQualifiedName = true)
    (hsecond : ∀ c ∈ second, c.isQualifiedName = true) (hne : first ≠ []) (hne' : second ≠ []) :
    joinConstructs (label first) (label second) = label (first ++ second) ↔ Joins first second := by
  obtain ⟨p, ps, rfl⟩ := List.exists_cons_of_ne_nil hne
  obtain ⟨q, qs, rfl⟩ := List.exists_cons_of_ne_nil hne'
  by_cases hsame : label (p :: ps) = label (q :: qs)
  · -- the second part adds nothing to the label
    rw [← hsame, joinConstructs_self, label_append_of_eq]
    constructor
    · exact fun h => .one p (List.forall_mem_cons.2 ⟨rfl, h⟩)
    · rintro (⟨c, h⟩ | ⟨-, -, hlabels⟩)
      · intro d hd
        rw [h d (List.mem_cons_of_mem p hd), h p List.mem_cons_self]
      · exact absurd hsame hlabels
  · have hnonempty : ∀ c cs, c.isQualifiedName = true → label (c :: cs) ≠ [] := by
      intro c cs hc hnil
      exact Text.ne_nil_of_isQualifiedName hc (List.append_eq_nil_iff.1 hnil).1
    rw [joinConstructs_of_ne (hnonempty p ps (hfirst p List.mem_cons_self))
      (hnonempty q qs (hsecond q List.mem_cons_self)) (Ne.symm hsame), label_append_of_ne,
      dropWhile_eq_self_iff_ne]
    constructor
    · rintro ⟨⟨c, hc, hcq⟩, hlead⟩
      exact .apart ⟨c, hc, by simpa using hcq⟩ (by simpa using hlead) hsame
    · rintro (⟨c, h⟩ | ⟨⟨c, hc, hcq⟩, hlead, -⟩)
      · refine absurd ?_ hsame
        rw [label_of_forall fun d hd => h d (List.mem_append_left _ hd),
          label_of_forall fun d hd => h d (List.mem_append_right _ hd)]
      · exact ⟨⟨c, hc, by simpa using hcq⟩, by simpa using hlead⟩

end Report

namespace RuleBook

/-! ## Runs in parts -/

def constructs (fillers : List Filler) : List Text :=
  fillers.map fun filler => filler.target.construct

/-- The report of a run behind a report so far: its passes join the label one by one. -/
def behind (report : Report) (fillers : List Filler) (later : Report) : Report :=
  { report.merge later with
    construct := (constructs fillers).foldl Report.joinConstructs report.construct }

variable {budget : Nat} {t u : Text} {report : Report}

theorem construct_of_apply {filler : Filler} (h : filler.apply budget t = .ok (u, report)) :
    report.construct = filler.target.construct := by
  obtain ⟨calls, p, -, -, -, rfl⟩ := Filler.apply_run h
  rfl

theorem behind_nil (report : Report) : behind report [] .empty = report := by
  simp [behind, constructs, Report.merge, Report.empty]

theorem behind_cons {filler : Filler} {pass : Report}
    (hpass : pass.construct = filler.target.construct) (report : Report) (fillers : List Filler)
    (later : Report) :
    behind (report.merge pass) fillers later =
      behind report (filler :: fillers) (behind (Report.empty.merge pass) fillers later) := by
  simp [behind, constructs, Report.merge, Report.empty, hpass, List.append_assoc, Nat.add_assoc]

/-- A run with a report so far is the run without it, its report behind. -/
theorem applyFrom_eq (budget : Nat) (fillers : List Filler) (t : Text) (report : Report) :
    applyFrom budget fillers t report =
      (applyFrom budget fillers t .empty).map fun (u, later) =>
        (u, behind report fillers later) := by
  induction fillers generalizing t report with
  | nil =>
    show Except.ok (t, report) = Except.ok (t, behind report [] .empty)
    rw [behind_nil]
  | cons filler rest ih =>
    cases hpass : filler.apply budget t with
    | error fault =>
      unfold applyFrom
      rw [List.foldlM_cons, List.foldlM_cons]
      simp only [hpass]
      rfl
    | ok result =>
      obtain ⟨next, pass⟩ := result
      rw [applyFrom_cons hpass, applyFrom_cons hpass, ih next (report.merge pass),
        ih next (Report.empty.merge pass)]
      cases applyFrom budget rest next .empty with
      | error fault => rfl
      | ok result =>
        obtain ⟨last, later⟩ := result
        show Except.ok (last, _) = Except.ok (last, _)
        rw [behind_cons (construct_of_apply hpass)]

theorem apply_of_append (first second : List Filler) (budget : Nat) (t : Text) :
    apply ⟨first ++ second⟩ budget t =
      apply ⟨first⟩ budget t >>= fun (mid, report) =>
        (apply ⟨second⟩ budget mid).map fun (u, later) => (u, behind report second later) := by
  have hsplit : applyFrom budget (first ++ second) t .empty =
      applyFrom budget first t .empty >>= fun (mid, report) => applyFrom budget second mid report :=
    List.foldlM_append
  refine hsplit.trans (congrArg (applyFrom budget first t .empty >>= ·) (funext fun result => ?_))
  exact applyFrom_eq budget second result.1 result.2

theorem label_of_apply {fillers : List Filler} (h : apply ⟨fillers⟩ budget t = .ok (u, report)) :
    report.construct = (constructs fillers).foldl Report.joinConstructs [] := by
  have hsame := applyFrom_eq budget fillers t .empty
  rw [show applyFrom budget fillers t .empty = .ok (u, report) from h] at hsame
  exact congrArg (fun result => result.2.construct) (Except.ok.inj hsame)

/-! ## Profiles -/

theorem constructs_of_mapM {profiles : List Profile} {fillers : List Filler}
    (h : profiles.mapM Profile.filler = .ok fillers) :
    constructs fillers = profiles.map Profile.construct := by
  have hpairs := forall₂_of_mapM_filler h
  clear h
  induction hpairs with
  | nil => rfl
  | cons hfirst _ ih =>
    obtain ⟨rfl, -⟩ := eq_of_profile_filler hfirst
    exact congrArg (_ :: ·) ih

theorem isQualifiedName_of_mem {profiles : List Profile} {book : RuleBook}
    (h : ofProfiles profiles = .ok book) :
    ∀ c ∈ profiles.map Profile.construct, c.isQualifiedName = true := by
  rw [← constructs_of_mapM (mapM_filler_of_ofProfiles h)]
  unfold constructs
  rw [List.forall_mem_map]
  exact fun filler hfiller => Filler.isQualifiedName_of_refusal? (refusal?_eq_none_of_mem h hfiller)

theorem label_of_profiles {profiles : List Profile} {book : RuleBook}
    (h : ofProfiles profiles = .ok book) (happly : book.apply budget t = .ok (u, report)) :
    report.construct = Report.label (profiles.map Profile.construct) := by
  have hqualified := isQualifiedName_of_mem h
  rw [label_of_apply happly, constructs_of_mapM (mapM_filler_of_ofProfiles h)]
  cases hconstructs : profiles.map Profile.construct with
  | nil => rfl
  | cons c cs =>
    rw [hconstructs, List.forall_mem_cons] at hqualified
    exact Report.foldl_joinConstructs hqualified.1 hqualified.2

theorem ofProfiles_append {first second : List Profile} {book book' : RuleBook}
    (hfirst : ofProfiles first = .ok book) (hsecond : ofProfiles second = .ok book') :
    ofProfiles (first ++ second) = .ok ⟨book.fillers ++ book'.fillers⟩ := by
  unfold ofProfiles
  rw [List.mapM_append, mapM_filler_of_ofProfiles hfirst, mapM_filler_of_ofProfiles hsecond]
  rfl

/-- **A rule book in two parts.** A fault of the first part, and one of the second part on the text
of the first, is the fault of all profiles. Otherwise the text is that of the second part, and the
report is that of the first part with that of the second merged into it, but for the label, which is
that of all constructs. The label too is the merged one exactly if the labels of the parts join. -/
theorem apply_parts {first second : List Profile} {book book' : RuleBook}
    (hfirst : ofProfiles first = .ok book) (hsecond : ofProfiles second = .ok book')
    (hne : first ≠ []) (hne' : second ≠ []) (budget : Nat) (t : Text) :
    ∃ whole, ofProfiles (first ++ second) = .ok whole ∧
      (∀ fault, book.apply budget t = .error fault → whole.apply budget t = .error fault) ∧
      ∀ mid report, book.apply budget t = .ok (mid, report) →
        (∀ fault, book'.apply budget mid = .error fault → whole.apply budget t = .error fault) ∧
        ∀ u later, book'.apply budget mid = .ok (u, later) →
          whole.apply budget t = .ok (u, { report.merge later with
            construct := Report.label ((first ++ second).map Profile.construct) }) ∧
          (whole.apply budget t = .ok (u, report.merge later) ↔
            Report.Joins (first.map Profile.construct) (second.map Profile.construct)) := by
  have hwhole := ofProfiles_append hfirst hsecond
  have hrun := apply_of_append book.fillers book'.fillers budget t
  refine ⟨_, hwhole, fun fault hfault => ?_, fun mid report hmid =>
    ⟨fun fault hfault => ?_, fun u later hlater => ?_⟩⟩
  · rw [hrun, hfault]
    rfl
  · rw [hrun, hmid]
    show Except.map _ (book'.apply budget mid) = _
    rw [hfault]
    rfl
  · have hall : apply ⟨book.fillers ++ book'.fillers⟩ budget t =
        .ok (u, behind report book'.fillers later) := by
      rw [hrun, hmid]
      show Except.map _ (book'.apply budget mid) = _
      rw [hlater]
      rfl
    have hlabel := label_of_profiles hwhole hall
    have hjoins := Report.joinConstructs_label_iff (isQualifiedName_of_mem hfirst)
      (isQualifiedName_of_mem hsecond) (by simpa using hne) (by simpa using hne')
    have hreport : behind report book'.fillers later = { report.merge later with
        construct := Report.label ((first ++ second).map Profile.construct) } := by
      rw [← hlabel]
      rfl
    rw [hreport] at hall
    refine ⟨hall, ?_⟩
    rw [hall, ← hjoins, ← label_of_profiles hfirst hmid, ← label_of_profiles hsecond hlater,
      List.map_append]
    constructor
    · intro heq
      exact (congrArg (fun result => result.2.construct) (Except.ok.inj heq)).symm
    · intro heq
      rw [← heq]
      rfl

theorem apply_parts_sample :
    let first : List Profile :=
      [⟨['P'], .none, .round, [⟨['k'], ['a'], ['1']⟩]⟩, ⟨['Q'], .none, .round, []⟩]
    let second : List Profile := [⟨['P'], .none, .round, [⟨['j'], ['a'], ['2']⟩]⟩]
    let book : RuleBook :=
      ⟨[⟨⟨['P'], .round⟩, [⟨['k'], ['a'], ['1']⟩], .none⟩, ⟨⟨['Q'], .round⟩, [], .none⟩]⟩
    let book' : RuleBook := ⟨[⟨⟨['P'], .round⟩, [⟨['j'], ['a'], ['2']⟩], .none⟩]⟩
    let t := "P(a: 0,) Q(P())".toList
    let mid := "P(a: 0,\nk: 1,) Q(P())".toList
    let u := "P(a: 0,\nj: 2,\nk: 1,) Q(P())".toList
    let report : Report := ⟨['P', ',', 'Q'], 3, [⟨0, 7, ['k']⟩], [⟨11, ['k'], ['a']⟩]⟩
    let later : Report := ⟨['P'], 2, [⟨0, 7, ['j']⟩], [⟨17, ['j'], ['a']⟩]⟩
    ofProfiles first = .ok book ∧ ofProfiles second = .ok book' ∧ first ≠ [] ∧ second ≠ [] ∧
    book.apply 3 t = .ok (mid, report) ∧ book'.apply 3 mid = .ok (u, later) ∧
    ∃ whole, ofProfiles (first ++ second) = .ok whole ∧
      whole.apply 3 t = .ok (u, report.merge later) := by
  intro first second book book' t mid u report later
  have hfirst : ofProfiles first = .ok book := by rfl
  have hsecond : ofProfiles second = .ok book' := by rfl
  have hmid : book.apply 3 t = .ok (mid, report) := by rfl
  have hlater : book'.apply 3 mid = .ok (u, later) := by rfl
  have hjoins : Report.Joins (first.map Profile.construct) (second.map Profile.construct) :=
    .apart ⟨['Q'], by decide, by decide⟩ (by decide) (by decide)
  obtain ⟨whole, hwhole, -, hparts⟩ :=
    apply_parts hfirst hsecond (List.cons_ne_nil _ _) (List.cons_ne_nil _ _) 3 t
  exact ⟨hfirst, hsecond, List.cons_ne_nil _ _, List.cons_ne_nil _ _, hmid, hlater, whole, hwhole,
    ((hparts mid report hmid).2 u later hlater).2.2 hjoins⟩

/-- The merged label can be another one. The second part begins with the construct of the first
part, which all passes at once name only once. -/
theorem apply_parts_relabels :
    let profile (c : Char) : Profile := ⟨[c], .none, .round, []⟩
    let filler (c : Char) : Filler := ⟨⟨[c], .round⟩, [], .none⟩
    let report : Report := ⟨['A'], 0, [], []⟩
    let later : Report := ⟨['A', ',', 'B'], 0, [], []⟩
    ofProfiles [profile 'A'] = .ok ⟨[filler 'A']⟩ ∧
    ofProfiles [profile 'A', profile 'B'] = .ok ⟨[filler 'A', filler 'B']⟩ ∧
    ofProfiles [profile 'A', profile 'A', profile 'B'] =
      .ok ⟨[filler 'A', filler 'A', filler 'B']⟩ ∧
    apply ⟨[filler 'A']⟩ 1 [] = .ok ([], report) ∧
    apply ⟨[filler 'A', filler 'B']⟩ 1 [] = .ok ([], later) ∧
    apply ⟨[filler 'A', filler 'A', filler 'B']⟩ 1 [] = .ok ([], later) ∧
    (report.merge later).construct = ['A', ',', 'A', ',', 'B'] ∧ report.merge later ≠ later := by
  intro profile filler report later
  exact ⟨rfl, rfl, rfl, rfl, rfl, rfl, rfl, by decide⟩

end RuleBook

end ArgFill
