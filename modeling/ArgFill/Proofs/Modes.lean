import ArgFill.CommandLine.Run
import ArgFill.Proofs.Boundary

/-!
# Checking predicts writing

One command line may check files, fill them, or hand out what filling would leave in them. The three
runs go over the same files, and each file is processed on its own: filling one of them leaves what
is read of the others as it was (`Folder.read_write_of_ne`).

* `RuleBook.Fills` : a rule book fills a file; `Batch.add_of_fills` and `Batch.add_of_not_fills` say
  what a run does then and otherwise, whatever its mode;
* `Alongside` : the three runs behind the same files. One more file keeps it (`Alongside.add`), so it
  holds behind all of them (`Alongside.run`);
* `check_predicts_write` : what follows for the outputs, the exit codes and the folders.
-/

namespace ArgFill

/-! ## One file changes -/

namespace Folder

variable {folder : Folder} {path name t : Text}

theorem lookup_write (folder : Folder) (path content name : Text) :
    (folder.write path content).files.lookup name =
      if name = Path.plain path then (folder.files.lookup name).map fun _ => .text content
      else folder.files.lookup name := by
  show (folder.files.map fun file =>
    if file.1 = Path.plain path then (Path.plain path, Content.text content) else file).lookup name = _
  induction folder.files with
  | nil => simp
  | cons file files ih =>
    obtain ⟨key, old⟩ := file
    rw [List.map_cons, List.lookup_cons]
    by_cases hkey : key = Path.plain path
    · subst hkey
      by_cases hname : name = Path.plain path
      · simp [hname]
      · have hne : (name == Path.plain path) = false := beq_eq_false_iff_ne.2 hname
        rw [if_pos rfl, List.lookup_cons, hne]
        simpa [hname] using ih
    · rw [if_neg hkey, List.lookup_cons]
      by_cases hname : name = key
      · subst hname
        simp [hkey]
      · have hne : (name == key) = false := beq_eq_false_iff_ne.2 hname
        rw [hne]
        exact ih

theorem lookup_write_of_ne (h : name ≠ Path.plain path) (content : Text) :
    (folder.write path content).files.lookup name = folder.files.lookup name := by
  rw [lookup_write, if_neg h]

theorem holds_write (folder : Folder) (path content : Text) :
    (folder.write path content).holds = folder.holds := by
  funext name
  unfold holds
  rw [lookup_write]
  split
  · exact Option.isSome_map
  · rfl

/-- A file that is written leaves the others readable as they were. -/
theorem read_write_of_ne (h : Path.plain name ≠ Path.plain path) (content : Text) :
    (folder.write path content).read name = folder.read name := by
  unfold read find
  rw [lookup_write_of_ne h, holds_write]

theorem read_eq_ok_iff : folder.read path = .ok t ↔
    folder.files.lookup (Path.plain path) = some (.text t) ∧ Path.endsInFolder path = false := by
  unfold read find
  cases hfile : folder.files.lookup (Path.plain path) with
  | none =>
    refine ⟨fun h => ?_, fun h => nomatch h.1⟩
    simp only at h
    repeat' split at h
    all_goals cases h
  | some content =>
    cases Path.endsInFolder path with
    | true => exact ⟨nofun, nofun⟩
    | false =>
      cases content with
      | bytes content => exact ⟨nofun, nofun⟩
      | text content =>
        constructor
        · intro h
          obtain rfl := Except.ok.inj h
          exact ⟨rfl, rfl⟩
        · rintro ⟨⟨⟩, -⟩
          rfl

/-- What is written to a file that could be read is read from it. -/
theorem read_write_self (h : folder.read path = .ok t) (content : Text) :
    (folder.write path content).read path = .ok content := by
  rw [read_eq_ok_iff] at h ⊢
  rw [lookup_write, if_pos rfl, h.1]
  exact ⟨rfl, h.2⟩

/-- The folder with a file filled: it is written if the filled text is another one. -/
def fill (folder : Folder) (path source filled : Text) : Folder :=
  if filled != source then folder.write path filled else folder

theorem lookup_fill_of_ne (h : name ≠ Path.plain path) (source filled : Text) :
    (folder.fill path source filled).files.lookup name = folder.files.lookup name := by
  unfold fill
  split
  · exact lookup_write_of_ne h filled
  · rfl

theorem read_fill_of_ne (h : Path.plain name ≠ Path.plain path) (source filled : Text) :
    (folder.fill path source filled).read name = folder.read name := by
  unfold fill
  split
  · exact read_write_of_ne h filled
  · rfl

theorem read_fill_self (h : folder.read path = .ok t) (filled : Text) :
    (folder.fill path t filled).read path = .ok filled := by
  unfold fill
  split
  · exact read_write_self h filled
  · next hsame =>
    obtain rfl : filled = t := by simpa using hsame
    exact h

theorem exists_ne_fill_iff {first : Folder}
    (hsame : folder.files.lookup (Path.plain path) = first.files.lookup (Path.plain path))
    (hfile : first.files.lookup (Path.plain path) = some (.text t)) (filled : Text) :
    (∃ name, folder.files.lookup name ≠ first.files.lookup name) ∨ (filled != t) = true ↔
      ∃ name, (folder.fill path t filled).files.lookup name ≠ first.files.lookup name := by
  unfold fill
  by_cases hchange : (filled != t) = true
  · rw [if_pos hchange]
    refine ⟨fun _ => ⟨Path.plain path, ?_⟩, fun _ => Or.inr hchange⟩
    rw [lookup_write, if_pos rfl, hsame, hfile]
    simpa using hchange
  · rw [if_neg hchange]
    exact or_iff_left hchange

end Folder

/-! ## One file of a run -/

/-- A rule book fills the file at a path: there is a text, and no pass over it fails. -/
def RuleBook.Fills (rules : RuleBook) (folder : Folder) (path filled : Text) : Prop :=
  ∃ source report, folder.read path = .ok source ∧
    rules.apply Filler.defaultBudget source = .ok (filled, report)

theorem exists_profiles_of_loadBook {folder : Folder} {name : Text} {rules : RuleBook}
    (h : loadBook folder name = .ok rules) : ∃ profiles, RuleBook.ofProfiles profiles = .ok rules := by
  unfold loadBook at h
  split at h
  · cases h
  · split at h
    · cases h
    · next t _ book hbook =>
      obtain rfl := Except.ok.inj h
      unfold RuleBook.ofToml at hbook
      split at hbook
      · cases hbook
      · next entries hentries =>
        cases hprofiles : RuleBook.profilesOf entries with
        | error fault =>
          rw [hprofiles] at hbook
          cases hbook
        | ok profiles =>
          rw [hprofiles] at hbook
          exact ⟨profiles, hbook⟩

namespace CommandLine

variable {rules : RuleBook} {folder : Folder} {mode : Mode} {b : Batch} {name source filled : Text}
  {report : Report}

/-- What a run does with a file that is filled. -/
theorem Batch.add_of_fills (hread : b.folder.read name = .ok source)
    (happly : rules.apply Filler.defaultBudget source = .ok (filled, report)) :
    Batch.add rules mode b name = .ok
      ⟨b.outcomes ++ [⟨name, filled != source, report, if mode = .print then some filled else none⟩],
        b.failed, if mode = .write then b.folder.fill name source filled else b.folder⟩ := by
  unfold Batch.add processFile
  rw [hread]
  simp only [happly]
  cases mode <;> rfl

/-- What a run does with a file that is not filled, unless an offset misses a character. -/
theorem Batch.add_of_not_fills (hbad : ∀ t, rules.apply Filler.defaultBudget t ≠ .error .badOffset)
    (hnone : ∀ filled, ¬ rules.Fills b.folder name filled) :
    Batch.add rules mode b name = .ok { b with failed := true } := by
  unfold Batch.add processFile
  cases hread : b.folder.read name with
  | error why => rfl
  | ok source =>
    cases happly : rules.apply Filler.defaultBudget source with
    | ok result => exact absurd ⟨source, result.2, hread, happly⟩ (hnone result.1)
    | error fault =>
      simp only [happly]
      cases fault with
      | badOffset => exact absurd happly (hbad source)
      | _ => rfl

/-! ## Three runs -/

/-- Three runs of a rule book over the files at `past` in one folder: they were checked, filled, and
handed out. Those at `done` were filled, and hold `contents` then. -/
structure Alongside (rules : RuleBook) (folder : Folder) (past : List Text)
    (checked written printed : Batch) (done contents : List Text) : Prop where
  checkedFolder : checked.folder = folder
  printedFolder : printed.folder = folder
  outcomes : written.outcomes = checked.outcomes
  failed : written.failed = checked.failed
  missed : checked.failed = true ↔ ∃ name ∈ past, name ∉ done
  silent : checked.printed = []
  names : checked.outcomes.map Outcome.name = done
  changed : checked.outcomes.any Outcome.changed = true ↔
    ∃ name, written.folder.files.lookup name ≠ folder.files.lookup name
  sublist : done.Sublist past
  fills : ∀ name ∈ past, name ∈ done ↔ ∃ filled, rules.Fills folder name filled
  same : ∀ name, name ∉ done.map Path.plain →
    written.folder.files.lookup name = folder.files.lookup name
  readable : ∀ name, Path.plain name ∉ done.map Path.plain →
    written.folder.read name = folder.read name
  left : done.map written.folder.read = contents.map .ok
  handedOut : printed.printed = contents.flatten

variable {past : List Text} {checked written printed : Batch} {done contents : List Text}

theorem Batch.printed_append (b : Batch) (outcome : Outcome) (failed : Bool) (folder : Folder) :
    Batch.printed ⟨b.outcomes ++ [outcome], failed, folder⟩ = b.printed ++ outcome.output.getD [] := by
  unfold Batch.printed
  simp

theorem Alongside.add (hbad : ∀ t, rules.apply Filler.defaultBudget t ≠ .error .badOffset)
    (h : Alongside rules folder past checked written printed done contents)
    (hnew : Path.plain name ∉ past.map Path.plain) :
    ∃ checked' written' printed' done' contents',
      Batch.add rules .check checked name = .ok checked' ∧
      Batch.add rules .write written name = .ok written' ∧
      Batch.add rules .print printed name = .ok printed' ∧
      Alongside rules folder (past ++ [name]) checked' written' printed' done' contents' := by
  have hnotDone : Path.plain name ∉ done.map Path.plain :=
    fun hmem => hnew ((h.sublist.map Path.plain).subset hmem)
  have hread := h.readable name hnotDone
  have hchecked : checked.folder.read name = folder.read name := by rw [h.checkedFolder]
  have hprinted : printed.folder.read name = folder.read name := by rw [h.printedFolder]
  by_cases hfills : ∃ filled, rules.Fills folder name filled
  · obtain ⟨filled, source, report, hsource, happly⟩ := id hfills
    refine ⟨_, _, _, done ++ [name], contents ++ [filled],
      Batch.add_of_fills (hchecked.trans hsource) happly,
      Batch.add_of_fills (hread.trans hsource) happly,
      Batch.add_of_fills (hprinted.trans hsource) happly, ?_⟩
    have hfilled := Folder.read_fill_self (hread.trans hsource) filled
    have hother : ∀ other, Path.plain other ≠ Path.plain name →
        (written.folder.fill name source filled).read other = written.folder.read other :=
      fun other hne => Folder.read_fill_of_ne hne source filled
    have hpastDone : ∀ other ∈ past, other ∈ done ++ [name] ↔ other ∈ done := by
      intro other hpast
      rw [List.mem_append]
      refine or_iff_left fun hlast => ?_
      obtain rfl := List.mem_singleton.1 hlast
      exact hnew (List.mem_map_of_mem hpast)
    exact {
      checkedFolder := h.checkedFolder
      printedFolder := h.printedFolder
      outcomes := congrArg (· ++ [_]) h.outcomes
      failed := h.failed
      missed := by
        rw [h.missed]
        constructor
        · rintro ⟨other, hpast, hmiss⟩
          exact ⟨other, List.mem_append_left _ hpast, fun hmem => hmiss ((hpastDone other hpast).1 hmem)⟩
        · rintro ⟨other, hmem, hmiss⟩
          rw [List.mem_append, not_or] at hmiss
          exact ⟨other, (List.mem_append.1 hmem).resolve_right hmiss.2, hmiss.1⟩
      silent := by
        rw [Batch.printed_append]
        exact List.append_eq_nil_iff.2 ⟨h.silent, rfl⟩
      names := by
        rw [List.map_append, h.names]
        rfl
      changed := by
        rw [List.any_append, Bool.or_eq_true, h.changed, List.any_cons, List.any_nil, Bool.or_false]
        exact Folder.exists_ne_fill_iff (h.same _ hnotDone) (Folder.read_eq_ok_iff.1 hsource).1 filled
      sublist := h.sublist.append (List.Sublist.refl [name])
      fills := by
        intro other hmem
        rcases List.mem_append.1 hmem with hpast | hlast
        · rw [hpastDone other hpast]
          exact h.fills other hpast
        · obtain rfl := List.mem_singleton.1 hlast
          exact ⟨fun _ => hfills, fun _ => List.mem_append_right _ hlast⟩
      same := by
        intro other hnot
        rw [List.map_append, List.mem_append, not_or] at hnot
        rw [← h.same other hnot.1]
        exact Folder.lookup_fill_of_ne (fun heq => hnot.2 (List.mem_singleton.2 heq)) source filled
      readable := by
        intro other hnot
        rw [List.map_append, List.mem_append, not_or] at hnot
        rw [← h.readable other hnot.1]
        exact hother other fun heq => hnot.2 (List.mem_singleton.2 heq)
      left := by
        rw [List.map_append, List.map_append, ← h.left]
        refine congrArg₂ _ (List.map_congr_left fun other hmem => hother other fun heq => ?_) ?_
        · exact hnotDone (heq ▸ List.mem_map_of_mem hmem)
        · exact congrArg (fun content => [content]) hfilled
      handedOut := by
        rw [Batch.printed_append, h.handedOut, List.flatten_append]
        simp }
  · have hnone : ∀ {b : Batch}, b.folder.read name = folder.read name →
        ∀ filled, ¬ rules.Fills b.folder name filled := by
      rintro b hb filled ⟨source, report, hsource, happly⟩
      exact hfills ⟨filled, source, report, hb.symm.trans hsource, happly⟩
    refine ⟨_, _, _, done, contents, Batch.add_of_not_fills hbad (hnone hchecked),
      Batch.add_of_not_fills hbad (hnone hread), Batch.add_of_not_fills hbad (hnone hprinted), ?_⟩
    exact {
      h with
      failed := rfl
      missed := ⟨fun _ => ⟨name, by simp, fun hmem => hnotDone (List.mem_map_of_mem hmem)⟩, fun _ => rfl⟩
      sublist := h.sublist.trans (List.sublist_append_left past [name])
      fills := by
        intro other hother
        rcases List.mem_append.1 hother with hother | hother
        · exact h.fills other hother
        · obtain rfl := List.mem_singleton.1 hother
          exact ⟨fun hmem => absurd (List.mem_map_of_mem hmem) hnotDone,
            fun hfilled => absurd hfilled hfills⟩ }

theorem Alongside.run (hbad : ∀ t, rules.apply Filler.defaultBudget t ≠ .error .badOffset)
    {paths : List Text} (h : Alongside rules folder past checked written printed done contents)
    (hnew : ((past ++ paths).map Path.plain).Nodup) :
    ∃ checked' written' printed' done' contents',
      paths.foldlM (Batch.add rules .check) checked = .ok checked' ∧
      paths.foldlM (Batch.add rules .write) written = .ok written' ∧
      paths.foldlM (Batch.add rules .print) printed = .ok printed' ∧
      Alongside rules folder (past ++ paths) checked' written' printed' done' contents' := by
  induction paths generalizing past checked written printed done contents with
  | nil =>
    rw [List.append_nil]
    exact ⟨_, _, _, _, _, rfl, rfl, rfl, h⟩
  | cons name paths ih =>
    have hname : Path.plain name ∉ past.map Path.plain := by
      rw [List.map_append, List.map_cons] at hnew
      exact fun hmem => (List.nodup_append.1 hnew).2.2 _ hmem _ List.mem_cons_self rfl
    obtain ⟨checked', written', printed', done', contents', hc, hw, hp, hnext⟩ := h.add hbad hname
    rw [List.append_cons] at hnew ⊢
    simp only [List.foldlM_cons, hc, hw, hp]
    exact ih hnext hnew

theorem alongside_nil (rules : RuleBook) (folder : Folder) :
    Alongside rules folder [] ⟨[], false, folder⟩ ⟨[], false, folder⟩ ⟨[], false, folder⟩ [] [] where
  checkedFolder := rfl
  printedFolder := rfl
  outcomes := rfl
  failed := rfl
  missed := by simp
  silent := rfl
  names := rfl
  changed := by simp
  sublist := List.Sublist.refl []
  fills := nofun
  same := fun _ _ => rfl
  readable := fun _ _ => rfl
  left := rfl
  handedOut := rfl

/-! ## Three results -/

theorem Batch.code_eq_two_iff {json : Bool} : (b.result mode json).code = 2 ↔ b.failed = true := by
  unfold Batch.result
  cases hfailed : b.failed with
  | true => exact ⟨fun _ => rfl, fun _ => rfl⟩
  | false =>
    refine ⟨fun hcode => ?_, nofun⟩
    simp only [Bool.false_eq_true, if_false] at hcode
    split at hcode <;> exact absurd hcode (by decide)

theorem Batch.code_eq_one_iff {json : Bool} (hfailed : b.failed = false) :
    (b.result .check json).code = 1 ↔ b.outcomes.any Outcome.changed = true := by
  unfold Batch.result
  rw [hfailed]
  cases b.outcomes.any Outcome.changed with
  | false => exact ⟨fun hcode => absurd hcode (show (0 : UInt32) ≠ 1 by decide), nofun⟩
  | true => exact ⟨fun _ => rfl, fun _ => rfl⟩

/-- What the results of checking, filling and handing out the files at `paths` have to do with each
other. The files at `done` are those that the rule book fills: filling lists these and changes no
other file, and handing out gives the texts that it leaves in them. -/
structure Predicts (folder : Folder) (book : Text) (paths : List Text)
    (checked written printed : Result) : Prop where
  output : checked.output = written.output
  checkedFolder : checked.folder = folder
  printedFolder : printed.folder = folder
  fault : written.code = 2 ↔ checked.code = 2
  failed : checked.code = 2 ↔ ¬ ∃ rules, loadBook folder book = .ok rules ∧
    ∀ name ∈ paths, ∃ filled, rules.Fills folder name filled
  change : checked.code ≠ 2 →
    (checked.code = 1 ↔ ∃ name, written.folder.files.lookup name ≠ folder.files.lookup name)
  files : ∃ (done contents : List Text), done.Sublist paths ∧
    (∀ name ∈ paths, name ∈ done ↔
      ∃ rules filled, loadBook folder book = .ok rules ∧ rules.Fills folder name filled) ∧
    (∀ rules, loadBook folder book = .ok rules → ∃ outcomes : List Outcome,
      outcomes.map Outcome.name = done ∧ written.output = outcomesJson outcomes ++ ['\n']) ∧
    (∀ name, written.folder.files.lookup name ≠ folder.files.lookup name → name ∈ done) ∧
    done.map written.folder.read = contents.map .ok ∧ printed.output = contents.flatten

theorem Alongside.predicts {paths : List Text} {book : Text}
    (h : Alongside rules folder paths checked written printed done contents)
    (hload : loadBook folder book = .ok rules) (hplain : ∀ name ∈ paths, Path.plain name = name) :
    Predicts folder book paths (checked.result .check true) (written.result .write true)
      (printed.result .print false) where
  output := by
    unfold Batch.result Batch.printed
    rw [h.outcomes]
  checkedFolder := h.checkedFolder
  printedFolder := h.printedFolder
  fault := by rw [Batch.code_eq_two_iff, Batch.code_eq_two_iff, h.failed]
  failed := by
    rw [Batch.code_eq_two_iff, h.missed]
    constructor
    · rintro ⟨name, hname, hmiss⟩ ⟨rules', hload', hall⟩
      obtain rfl := Except.ok.inj (hload.symm.trans hload')
      exact hmiss ((h.fills name hname).2 (hall name hname))
    · intro hnot
      by_contra hnone
      push Not at hnone
      exact hnot ⟨rules, hload, fun name hname => (h.fills name hname).1 (hnone name hname)⟩
  change := by
    intro hcode
    rw [Ne, Batch.code_eq_two_iff, Bool.not_eq_true] at hcode
    rw [Batch.code_eq_one_iff hcode]
    exact h.changed
  files := by
    have hdone : done.map Path.plain = done := by
      rw [List.map_congr_left fun name hname => hplain name (h.sublist.subset hname), List.map_id']
    refine ⟨done, contents, h.sublist, fun name hname => ?_, fun _ _ => ⟨checked.outcomes, h.names, ?_⟩,
      fun name hne => ?_, h.left, ?_⟩
    · rw [h.fills name hname]
      constructor
      · rintro ⟨filled, hfilled⟩
        exact ⟨rules, filled, hload, hfilled⟩
      · rintro ⟨rules', filled, hload', hfilled⟩
        obtain rfl := Except.ok.inj (hload.symm.trans hload')
        exact ⟨filled, hfilled⟩
    · have hsilent : written.printed = [] := by
        rw [← h.silent]
        unfold Batch.printed
        rw [h.outcomes]
      show written.printed ++ (outcomesJson written.outcomes ++ ['\n']) = _
      rw [hsilent, h.outcomes, List.nil_append]
    · by_contra hnot
      rw [← hdone] at hnot
      exact hne (h.same name hnot)
    · show printed.printed ++ [] = _
      rw [List.append_nil, h.handedOut]

section

variable {args paths : List Text} {book : Text} {json : Bool}
  (hargs : Request.ofArguments? args = some (.apply book mode json paths))

include hargs

theorem runArguments_apply : runArguments folder args =
    match loadBook folder book with
    | .error _ => ⟨2, [], folder⟩
    | .ok rules =>
      match paths.foldlM (Batch.add rules mode) ⟨[], false, folder⟩ with
      | .ok batch => batch.result mode json
      | .error batch => ⟨brokenOff, batch.printed, batch.folder⟩ := by
  unfold runArguments
  rw [hargs]
  rfl

theorem runArguments_of_batch (hload : loadBook folder book = .ok rules)
    (hbatch : paths.foldlM (Batch.add rules mode) ⟨[], false, folder⟩ = .ok b) :
    runArguments folder args = b.result mode json := by
  rw [runArguments_apply hargs, hload]
  simp only [hbatch]

theorem runArguments_of_loadBook_error {why : FileFault} (hload : loadBook folder book = .error why) :
    runArguments folder args = ⟨2, [], folder⟩ := by
  rw [runArguments_apply hargs, hload]

end

theorem predicts_of_loadBook_error {paths : List Text} {book : Text} {why : FileFault}
    (hload : loadBook folder book = .error why) :
    Predicts folder book paths ⟨2, [], folder⟩ ⟨2, [], folder⟩ ⟨2, [], folder⟩ where
  output := rfl
  checkedFolder := rfl
  printedFolder := rfl
  fault := Iff.rfl
  failed := by
    refine iff_of_true rfl ?_
    rintro ⟨rules, hload', -⟩
    rw [hload] at hload'
    cases hload'
  change := fun hcode => absurd rfl hcode
  files := by
    refine ⟨[], [], List.nil_sublist paths, fun name _ => ⟨nofun, ?_⟩, fun rules hload' => ?_,
      fun name hne => absurd rfl hne, rfl, rfl⟩
    · rintro ⟨rules, filled, hload', -⟩
      rw [hload] at hload'
      cases hload'
    · rw [hload] at hload'
      cases hload'

/-- **Checking predicts writing.** Three command lines check files, fill them and hand them out, by
one rule book whose opening brackets are one byte, which may be one of the files. Checking prints
what filling prints, and is at fault exactly if filling is: if there is no rule book, or it does not
fill one of the files. Otherwise it tells whether filling changes a file. Only filling changes files,
those that the rule book fills, and what is handed out is what it leaves in them. -/
theorem check_predicts_write {folder : Folder} {book : Text} {paths check write print : List Text}
    (hcheck : Request.ofArguments? check = some (.apply book .check true paths))
    (hwrite : Request.ofArguments? write = some (.apply book .write true paths))
    (hprint : Request.ofArguments? print = some (.apply book .print false paths))
    (hone : ∀ rules, loadBook folder book = .ok rules → ∀ filler ∈ rules.fillers,
      filler.target.brackets.opening.utf8Size = 1)
    (hplain : ∀ name ∈ paths, '/' ∉ name ∧ Path.stays name = false) (hnodup : paths.Nodup) :
    Predicts folder book paths (runArguments folder check) (runArguments folder write)
      (runArguments folder print) := by
  cases hload : loadBook folder book with
  | error why =>
    rw [runArguments_of_loadBook_error hcheck hload, runArguments_of_loadBook_error hwrite hload,
      runArguments_of_loadBook_error hprint hload]
    exact predicts_of_loadBook_error hload
  | ok rules =>
    obtain ⟨profiles, hprofiles⟩ := exists_profiles_of_loadBook hload
    have hbad := RuleBook.apply_ne_badOffset hprofiles (hone rules hload) Filler.defaultBudget
    have hself : ∀ name ∈ paths, Path.plain name = name :=
      fun name hname => Path.plain_eq_self (hplain name hname).1 (hplain name hname).2
    have hdistinct : (([] ++ paths).map Path.plain).Nodup := by
      rw [List.nil_append, List.map_congr_left hself, List.map_id']
      exact hnodup
    obtain ⟨checked, written, printed, done, contents, hc, hw, hp, h⟩ :=
      (alongside_nil rules folder).run hbad hdistinct
    rw [runArguments_of_batch hcheck hload hc, runArguments_of_batch hwrite hload hw,
      runArguments_of_batch hprint hload hp]
    exact h.predicts hload hself

/-- Of these files `f` changes, `u` does not, `g` has a call that does not end, and the rule book `r`
changes itself. Checking has an exit code of its own for each of the three lists. -/
theorem check_predicts_write_sample :
    let rules : RuleBook := ⟨[⟨⟨['P'], .round⟩, [⟨['b'], ['a'], ['1']⟩], .none⟩]⟩
    let first := "construct = 'P' # P(a: 0,)\n".toList
    let last := "[[rules]]\nrequired_key = 'b'\nanchor_key = 'a'\nliteral = '1'\n".toList
    let folder : Folder := ⟨[(['f'], .text "P(a: 0,)".toList), (['g'], .text "P(a: 0,".toList),
      (['r'], .text (first ++ last)), (['s'], .bytes [0xFF]), (['u'], .text "P(b: 0)".toList)]⟩
    let lists : List (List String) := [["f", "g", "r"], ["u", "f"], ["u"]]
    let check (names : List String) := (["apply", "-rr", "--check", "--json"] ++ names).map String.toList
    let write (names : List String) := (["apply"] ++ names ++ ["--rules=r", "--json"]).map String.toList
    let print (names : List String) := (["apply", "-r", "r", "--diff", "--"] ++ names).map String.toList
    loadBook folder ['r'] = .ok rules ∧
    (∀ filler ∈ rules.fillers, filler.target.brackets.opening.utf8Size = 1) ∧
    (∀ names ∈ lists,
      let paths := names.map String.toList
      Request.ofArguments? (check names) = some (.apply ['r'] .check true paths) ∧
      Request.ofArguments? (write names) = some (.apply ['r'] .write true paths) ∧
      Request.ofArguments? (print names) = some (.apply ['r'] .print false paths) ∧
      (∀ name ∈ paths, '/' ∉ name ∧ Path.stays name = false) ∧ paths.Nodup ∧
      Predicts folder ['r'] paths (runArguments folder (check names))
        (runArguments folder (write names)) (runArguments folder (print names))) ∧
    (lists.map fun names => (runArguments folder (check names)).code) = [2, 1, 0] ∧
    (lists.map fun names => (runArguments folder (write names)).code) = [2, 0, 0] ∧
    (runArguments folder (check ["u"])).output =
      ("[\n  \x7b\n    \"path\": \"u\",\n    \"changed\": false,\n    \"report\": \x7b\n" ++
        "      \"construct\": \"P\",\n      \"invocations\": 1,\n      \"insertions\": [],\n" ++
        "      \"skipped\": []\n    \x7d\n  \x7d\n]\n").toList ∧
    (runArguments folder (print ["f", "g", "r"])).output =
      "P(a: 0,\nb: 1,)construct = 'P' # P(a: 0,\nb: 1,)\n".toList ++ last := by
  intro rules first last folder lists check write print
  have hload : loadBook folder ['r'] = .ok rules := by decide +kernel
  have hone : ∀ filler ∈ rules.fillers, filler.target.brackets.opening.utf8Size = 1 := by decide
  refine ⟨hload, hone, fun names hnames => ?_, by decide +kernel, by decide +kernel,
    by decide +kernel, by decide +kernel⟩
  have hcheck : ∀ names ∈ lists, Request.ofArguments? (check names) =
      some (.apply ['r'] .check true (names.map String.toList)) := by decide +kernel
  have hwrite : ∀ names ∈ lists, Request.ofArguments? (write names) =
      some (.apply ['r'] .write true (names.map String.toList)) := by decide +kernel
  have hprint : ∀ names ∈ lists, Request.ofArguments? (print names) =
      some (.apply ['r'] .print false (names.map String.toList)) := by decide +kernel
  have hplain : ∀ names ∈ lists, ∀ name ∈ names.map String.toList,
      '/' ∉ name ∧ Path.stays name = false := by decide
  have hnodup : ∀ names ∈ lists, (names.map String.toList).Nodup := by decide
  refine ⟨hcheck names hnames, hwrite names hnames, hprint names hnames, hplain names hnames,
    hnodup names hnames, check_predicts_write (hcheck names hnames) (hwrite names hnames)
      (hprint names hnames) (fun rules' hrules => ?_) (hplain names hnames) (hnodup names hnames)⟩
  obtain rfl := Except.ok.inj (hload.symm.trans hrules)
  exact hone

end CommandLine

end ArgFill
