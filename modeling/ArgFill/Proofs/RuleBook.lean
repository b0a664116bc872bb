import ArgFill.Proofs.Results
import ArgFill.RuleBook

/-!
# What a rule book runs

A rule book runs one filler after the other, each over the text of the one before
(`applyFrom_cons`, `exists_of_applyFrom_cons`). The fillers are those that its profiles describe
(`Profile.filler_eq`, `forall₂_of_mapM_filler`), and each of them is accepted
(`refusal?_eq_none_of_mem`).
-/

namespace ArgFill

namespace Profile

def described (p : Profile) : Filler where
  target := ⟨p.construct, p.brackets⟩
  rules := p.rules
  indent := p.indent

/-- A profile has the filler it describes, unless its brackets are the same or the filler is refused. -/
theorem filler_eq (p : Profile) : p.filler =
    if p.brackets.opening = p.brackets.closing then .error (.sameBrackets p.construct)
    else p.described.refusal?.elim (.ok p.described) fun why =>
      .error (.invalid p.construct (.refused why)) := by
  have hchecked : Filler.checked ⟨⟨p.construct, p.brackets⟩, p.rules, p.indent⟩ =
      p.described.checked := rfl
  unfold filler
  split
  · rfl
  · rw [hchecked, Filler.checked]
    cases p.described.refusal? <;> rfl

end Profile

namespace RuleBook

/-! ## Passes -/

/-- The run of some fillers over a text with a report so far. -/
def applyFrom (budget : Nat) (fillers : List Filler) (t : Text) (report : Report) :
    Except Fault (Text × Report) :=
  fillers.foldlM (fun (t, report) filler => do
    let (next, pass) ← filler.apply budget t
    pure (next, report.merge pass)) (t, report)

theorem applyFrom_cons {budget : Nat} {filler : Filler} {t next : Text} {pass : Report}
    (h : filler.apply budget t = .ok (next, pass)) (rest : List Filler) (report : Report) :
    applyFrom budget (filler :: rest) t report = applyFrom budget rest next (report.merge pass) := by
  rw [applyFrom, List.foldlM_cons]
  simp only [h]
  rfl

theorem exists_of_applyFrom_cons {budget : Nat} {filler : Filler} {rest : List Filler} {t u : Text}
    {report last : Report} (h : applyFrom budget (filler :: rest) t report = .ok (u, last)) :
    ∃ next pass, filler.apply budget t = .ok (next, pass) ∧
      applyFrom budget rest next (report.merge pass) = .ok (u, last) := by
  cases hpass : filler.apply budget t with
  | error fault =>
    rw [applyFrom, List.foldlM_cons] at h
    simp only [hpass] at h
    cases h
  | ok result =>
    obtain ⟨next, pass⟩ := result
    rw [applyFrom_cons hpass] at h
    exact ⟨next, pass, rfl, h⟩

/-! ## Profiles -/

theorem eq_of_profile_filler {profile : Profile} {filler : Filler} (h : profile.filler = .ok filler) :
    filler = ⟨⟨profile.construct, profile.brackets⟩, profile.rules, profile.indent⟩ ∧
      filler.refusal? = none := by
  rw [Profile.filler_eq] at h
  split at h
  · cases h
  · cases hrefusal : profile.described.refusal? with
    | some why =>
      rw [hrefusal] at h
      cases h
    | none =>
      rw [hrefusal] at h
      obtain rfl := Except.ok.inj h
      exact ⟨rfl, hrefusal⟩

theorem forall₂_of_mapM_filler {profiles : List Profile} {fillers : List Filler}
    (h : profiles.mapM Profile.filler = .ok fillers) :
    List.Forall₂ (fun profile filler => profile.filler = .ok filler) profiles fillers :=
  mapM_eq_ok_iff.1 h

theorem exists_profile_of_mem {profiles : List Profile} {fillers : List Filler}
    (h : profiles.mapM Profile.filler = .ok fillers) {filler : Filler} (hfiller : filler ∈ fillers) :
    ∃ profile ∈ profiles, profile.filler = .ok filler := by
  have hpairs := forall₂_of_mapM_filler h
  clear h
  induction hpairs with
  | nil => cases hfiller
  | @cons profile first profiles rest hfirst _ ih =>
    rcases List.mem_cons.1 hfiller with rfl | hmem
    · exact ⟨profile, List.mem_cons_self, hfirst⟩
    · obtain ⟨p, hp, hfiller⟩ := ih hmem
      exact ⟨p, List.mem_cons_of_mem _ hp, hfiller⟩

section

variable {profiles : List Profile}

theorem ofProfiles_eq_ok_iff {book : RuleBook} :
    ofProfiles profiles = .ok book ↔ profiles.mapM Profile.filler = .ok book.fillers := by
  unfold ofProfiles
  cases profiles.mapM Profile.filler with
  | error fault => exact ⟨nofun, nofun⟩
  | ok fillers =>
    exact ⟨fun h => by rw [← Except.ok.inj h], fun h => by rw [Except.ok.inj h]; rfl⟩

theorem ofProfiles_eq_error_iff {fault : BookFault} :
    ofProfiles profiles = .error fault ↔ profiles.mapM Profile.filler = .error fault := by
  unfold ofProfiles
  cases profiles.mapM Profile.filler with
  | ok fillers => exact ⟨nofun, nofun⟩
  | error fault' =>
    exact ⟨fun h => by rw [Except.error.inj h], fun h => by rw [Except.error.inj h]; rfl⟩

theorem mapM_filler_of_ofProfiles {book : RuleBook} (h : ofProfiles profiles = .ok book) :
    profiles.mapM Profile.filler = .ok book.fillers :=
  ofProfiles_eq_ok_iff.1 h

end

theorem refusal?_eq_none_of_mem {profiles : List Profile} {book : RuleBook}
    (h : ofProfiles profiles = .ok book) {filler : Filler} (hfiller : filler ∈ book.fillers) :
    filler.refusal? = none := by
  obtain ⟨profile, -, hprofile⟩ := exists_profile_of_mem (mapM_filler_of_ofProfiles h) hfiller
  exact (eq_of_profile_filler hprofile).2

end RuleBook

end ArgFill
