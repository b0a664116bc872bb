import ArgFill.Proofs.Filled
import ArgFill.Proofs.RuleBook

/-!
# Filling twice

A rule book that left nothing out has nothing to do on its own result (`apply_result`). Two facts
about one filler make this up:

* `Target.locate_grown` : text that any filler of the book puts in keeps the calls of every target
  and the keys that they have;
* `Filler.apply_of_hasKeyAt` : a filler does nothing where every call has every key.

The fold over the fillers then carries the first one from each filler to the end of the run.
-/

namespace ArgFill

/-! ## Text that grows -/

/-- A text of the given kind was put in behind a comma, with a comma at its end. -/
def PutIn (kind : Text → Prop) (t u : Text) : Prop :=
  ∃ front back body, t = front ++ ',' :: back ∧ u = front ++ ',' :: (body ++ ',' :: back) ∧ kind body

def Grown (kind : Text → Prop) : Text → Text → Prop := Relation.ReflTransGen (PutIn kind)

/-- Has a call a key in a text? -/
def HasKeyAt (b : Brackets) (t : Text) (call : Call) (key : Text) : Prop :=
  ∃ args, call.HasArgs b t args ∧ args.hasKey key = true

namespace Target

variable {target : Target} (hname : target.construct.isQualifiedName = true)
  (hb : target.brackets.StandOut) {kind : Text → Prop} (hkind : ∀ body, kind body → target.Inert body)
  {t u : Text} {calls : List Call}

include hname hb hkind

/-- What is put in once moves the calls and takes no key from them. -/
theorem locate_putIn (h : PutIn kind t u) (hlocate : target.locate t = .ok calls) :
    ∃ f : Call → Call, target.locate u = .ok (calls.map f) ∧ ∀ call ∈ calls, ∀ key,
      key.isName = true → HasKeyAt target.brackets t call key →
        HasKeyAt target.brackets u (f call) key := by
  obtain ⟨front, back, body, rfl, rfl, hbody⟩ := h
  have hinert := hkind body hbody
  refine ⟨_, locate_insert hname hb hinert hlocate, ?_⟩
  rintro call - key hkey ⟨args, hargs, hpresent⟩
  obtain ⟨args', hargs', ⟨rfl, -⟩ | ⟨x, y, rfl, rfl, -⟩⟩ := hargs.insert_inert hb hinert
  · exact ⟨args', hargs', hpresent⟩
  · exact ⟨_, hargs', Text.hasKey_insert hkey hpresent body⟩

theorem locate_grown (h : Grown kind t u) (hlocate : target.locate t = .ok calls) :
    ∃ f : Call → Call, target.locate u = .ok (calls.map f) ∧ ∀ call ∈ calls, ∀ key,
      key.isName = true → HasKeyAt target.brackets t call key →
        HasKeyAt target.brackets u (f call) key := by
  induction h with
  | refl => exact ⟨id, by rw [List.map_id]; exact hlocate, fun _ _ _ _ h => h⟩
  | tail _ hput ih =>
    obtain ⟨f, hf, hkeys⟩ := ih
    obtain ⟨f', hf', hkeys'⟩ := locate_putIn hname hb hkind hput hf
    refine ⟨f' ∘ f, by rw [hf', List.map_map], fun call hcall key hkey hpresent => ?_⟩
    exact hkeys' (f call) (List.mem_map_of_mem hcall) key hkey (hkeys call hcall key hkey hpresent)

end Target

namespace Filler

variable {filler : Filler} {budget : Nat} {t u : Text} {report : Report}

theorem grown_of_apply (hinert : filler.Inert) {kind : Text → Prop}
    (hkind : ∀ rule ∈ filler.rules, ∀ indent, (∀ c ∈ indent, isGap c = true) →
      kind (rule.argument indent)) (h : filler.apply budget t = .ok (u, report)) :
    Grown kind t u := by
  obtain ⟨calls, hlocate⟩ := exists_locate_of_apply h
  have hinv : filler.Invariant budget calls (fun p => Grown kind t p.text)
      (fun _ _ _ p _ => Grown kind t p.text) (fun _ _ _ => True) := by
    refine ⟨fun _ h _ _ => h, fun h _ _ => ⟨h, trivial⟩, fun h _ _ => h,
      fun h hnext _ hindent htext _ => ?_, fun _ _ _ _ _ => trivial, fun _ _ _ _ _ _ _ _ _ => trivial⟩
    exact h.tail ⟨_, _, _, htext, rfl, hkind _ (of_next?_eq_some hnext).1 _ hindent⟩
  obtain ⟨p, -, rfl, -, hgrown, -⟩ := hinv.of_apply hinert hlocate .refl h
  exact hgrown

/-- A run that left nothing out gives every call every key. -/
theorem hasKeyAt_of_apply (hinert : filler.Inert) (h : filler.apply budget t = .ok (u, report))
    (hskips : report.skips = []) :
    ∃ calls nows, filler.target.locate t = .ok calls ∧ filler.target.locate u = .ok nows ∧
      nows.length = calls.length ∧
      report = ⟨filler.target.construct, calls.length, report.insertions, []⟩ ∧
      ∀ now ∈ nows, ∀ rule ∈ filler.rules, HasKeyAt filler.target.brackets u now rule.key := by
  obtain ⟨calls, hlocate⟩ := exists_locate_of_apply h
  obtain ⟨p, g, rfl, rfl, -, -, hlocated, hfilled⟩ :=
    (invariant_filled hinert budget calls).of_apply hinert hlocate List.nodup_nil h
  replace hskips : p.skips = [] := hskips
  refine ⟨calls, _, hlocate, hlocated, List.length_map _, by rw [hskips],
    fun now hnow rule hrule => ?_⟩
  obtain ⟨call, hcall, rfl⟩ := List.mem_map.1 hnow
  obtain ⟨args, hargs, hdone⟩ := hfilled call hcall
  refine ⟨args, hargs, (hdone.complete rule hrule).resolve_right fun hskip => ?_⟩
  rw [hskips] at hskip
  cases hskip

theorem budget_ne_zero_of_apply (h : filler.apply budget t = .ok (u, report)) {calls : List Call}
    (hlocate : filler.target.locate t = .ok calls) (hcalls : calls ≠ [])
    (hrules : filler.rules ≠ []) : budget ≠ 0 := by
  rintro rfl
  obtain ⟨calls', p, hlocate', hrun, -, -⟩ := apply_run h
  obtain rfl := Except.ok.inj (hlocate.symm.trans hlocate')
  rcases hrun with ⟨hnil, -⟩ | hrun
  · exact hrules hnil
  · obtain ⟨call, rest, hrest⟩ := List.exists_cons_of_ne_nil (List.reverse_ne_nil_iff.2 hcalls)
    rw [hrest] at hrun
    rcases Relation.ReflTransGen.cases_head hrun with heq | ⟨s, hstep, -⟩
    · cases heq
    · cases hstep

/-- A call that has every key is settled by one turn. -/
theorem fillCall_of_hasKeyAt (hone : filler.target.brackets.opening.utf8Size = 1)
    (hne : filler.target.brackets.opening ≠ filler.target.brackets.closing) {call : Call}
    {p : Progress} (hrules : filler.rules ≠ [])
    (hkeys : ∀ rule ∈ filler.rules, HasKeyAt filler.target.brackets p.text call rule.key)
    (hbudget : budget ≠ 0) : filler.fillCall call budget [] p = .ok p := by
  obtain ⟨left, rfl⟩ := Nat.exists_eq_succ_of_ne_zero hbudget
  obtain ⟨first, hfirst⟩ := List.exists_mem_of_ne_nil _ hrules
  obtain ⟨args, hargs, -⟩ := hkeys first hfirst
  have hnext : filler.next? args [] = none := by
    refine next?_eq_none_iff.2 fun rule hrule => Or.inl ?_
    obtain ⟨args', hargs', hkey⟩ := hkeys rule hrule
    rwa [hargs.unique hne hargs']
  rw [fillCall, turn_of_settled hone hne (hargs.opens rfl) hnext]
  rfl

/-- A filler has nothing to do where every call has every key. -/
theorem apply_of_hasKeyAt (hone : filler.target.brackets.opening.utf8Size = 1)
    (hne : filler.target.brackets.opening ≠ filler.target.brackets.closing) {nows : List Call}
    (hlocate : filler.target.locate u = .ok nows)
    (hkeys : ∀ now ∈ nows, ∀ rule ∈ filler.rules, HasKeyAt filler.target.brackets u now rule.key)
    (hbudget : nows ≠ [] → filler.rules ≠ [] → budget ≠ 0) :
    filler.apply budget u = .ok (u, ⟨filler.target.construct, nows.length, [], []⟩) := by
  have hfill : filler.rules ≠ [] → ∀ calls : List Call, (∀ call ∈ calls, call ∈ nows) →
      filler.fillCalls budget calls ⟨u, [], []⟩ = .ok ⟨u, [], []⟩ := by
    intro hrules calls hcalls
    induction calls with
    | nil => rfl
    | cons call calls ih =>
      have hcall := hcalls call List.mem_cons_self
      have hone' := fillCall_of_hasKeyAt hone hne (p := ⟨u, [], []⟩) hrules (hkeys call hcall)
        (hbudget (List.ne_nil_of_mem hcall) hrules)
      rw [fillCalls, List.foldlM_cons, hone']
      exact ih fun c hc => hcalls c (List.mem_cons_of_mem _ hc)
  by_cases hrules : filler.rules = []
  · exact apply_of_rules_nil hlocate hrules
  · rw [apply_of_locate hlocate hrules,
      hfill hrules nows.reverse fun call hcall => List.mem_reverse.1 hcall]
    rfl

end Filler

/-! ## Rule books -/

namespace RuleBook

structure Inert (fillers : List Filler) : Prop where
  accepted : ∀ filler ∈ fillers, filler.refusal? = none
  brackets : ∀ filler ∈ fillers, filler.target.brackets.StandOut
  literals : ∀ filler ∈ fillers, ∀ other ∈ fillers, ∀ rule ∈ other.rules,
    filler.target.Inert rule.literal

def InertText (fillers : List Filler) (body : Text) : Prop :=
  ∀ filler ∈ fillers, filler.target.Inert body

variable {fillers : List Filler}

theorem Inert.filler (h : Inert fillers) {filler : Filler} (hfiller : filler ∈ fillers) :
    filler.Inert :=
  ⟨h.accepted filler hfiller, h.brackets filler hfiller, h.literals filler hfiller filler hfiller⟩

theorem Inert.argument (h : Inert fillers) {filler : Filler} (hfiller : filler ∈ fillers)
    {rule : Rule} (hrule : rule ∈ filler.rules) {indent : Text}
    (hindent : ∀ c ∈ indent, isGap c = true) : InertText fillers (rule.argument indent) :=
  fun other hother =>
    inert_argument (Filler.isQualifiedName_of_refusal? (h.accepted other hother))
      (h.brackets other hother) (Filler.isName_of_refusal? (h.accepted filler hfiller) hrule).1
      (h.literals other hother filler hfiller rule hrule) hindent

/-- What some fillers did not report as left out, they find done in every text that grew since. -/
theorem applyFrom_grown (hinert : Inert fillers) {budget : Nat} {rest : List Filler}
    (hrest : ∀ filler ∈ rest, filler ∈ fillers) {t u : Text} {report last : Report}
    (h : applyFrom budget rest t report = .ok (u, last)) (hskips : last.skips = []) :
    report.skips = [] ∧ Grown (InertText fillers) t u ∧
      ∀ v, Grown (InertText fillers) u v →
        applyFrom budget rest v ⟨report.construct, report.callCount, [], []⟩ =
          .ok (v, ⟨last.construct, last.callCount, [], []⟩) := by
  induction rest generalizing t report with
  | nil =>
    obtain ⟨rfl, rfl⟩ := Prod.mk.inj (Except.ok.inj h)
    exact ⟨hskips, .refl, fun v _ => rfl⟩
  | cons filler rest ih =>
    have hfiller := hrest filler List.mem_cons_self
    have hown := hinert.filler hfiller
    obtain ⟨next, pass, hpass, hlast⟩ := exists_of_applyFrom_cons h
    obtain ⟨hmerged, hlater, hagain⟩ := ih (fun f hf => hrest f (List.mem_cons_of_mem _ hf)) hlast
    obtain ⟨hreport, hpassed⟩ := List.append_eq_nil_iff.1 hmerged
    have hgrown := Filler.grown_of_apply hown
      (fun rule hrule indent hindent => hinert.argument hfiller hrule hindent) hpass
    refine ⟨hreport, hgrown.trans hlater, fun v hv => ?_⟩
    obtain ⟨calls, nows, hcalls, hnows, hlength, heq, hkeys⟩ :=
      Filler.hasKeyAt_of_apply hown hpass hpassed
    obtain ⟨f, hf, hstay⟩ := Target.locate_grown (Filler.isQualifiedName_of_refusal? hown.accepted)
      hown.brackets (fun body hbody => hbody filler hfiller) (hlater.trans hv) hnows
    have hfixed : filler.apply budget v =
        .ok (v, ⟨filler.target.construct, (nows.map f).length, [], []⟩) := by
      refine Filler.apply_of_hasKeyAt hown.brackets.oneByte hown.brackets.differ hf ?_ ?_
      · intro now hnow rule hrule
        obtain ⟨old, hold, rfl⟩ := List.mem_map.1 hnow
        exact hstay old hold rule.key (Filler.isName_of_refusal? hown.accepted hrule).1
          (hkeys old hold rule hrule)
      · intro hne hrules
        refine Filler.budget_ne_zero_of_apply hpass hcalls ?_ hrules
        rintro rfl
        rw [List.length_nil, List.length_eq_zero_iff] at hlength
        exact hne (by rw [hlength, List.map_nil])
    rw [applyFrom_cons hfixed, ← hagain v hv, List.length_map, hlength, heq]
    rfl

/-- **A rule book that left nothing out has nothing to do on its own result.** -/
theorem apply_result {profiles : List Profile} {book : RuleBook}
    (hbook : ofProfiles profiles = .ok book) (hbrackets : ∀ p ∈ profiles, p.brackets.StandOut)
    (hliterals : ∀ p ∈ profiles, ∀ q ∈ profiles, ∀ rule ∈ q.rules,
      Target.Inert ⟨p.construct, p.brackets⟩ rule.literal)
    {budget : Nat} {t u : Text} {report : Report} (h : book.apply budget t = .ok (u, report))
    (hskips : report.skips = []) :
    book.apply budget u = .ok (u, ⟨report.construct, report.callCount, [], []⟩) := by
  cases hfillers : profiles.mapM Profile.filler with
  | error fault =>
    rw [ofProfiles, hfillers] at hbook
    cases hbook
  | ok fillers =>
    rw [ofProfiles, hfillers] at hbook
    obtain rfl := Except.ok.inj hbook
    have hprofile := fun filler (hfiller : filler ∈ fillers) => exists_profile_of_mem hfillers hfiller
    have hinert : Inert fillers := by
      refine ⟨fun filler hfiller => ?_, fun filler hfiller => ?_,
        fun filler hfiller other hother rule hrule => ?_⟩
      · obtain ⟨p, -, hp⟩ := hprofile filler hfiller
        exact (eq_of_profile_filler hp).2
      · obtain ⟨p, hmem, hp⟩ := hprofile filler hfiller
        rw [(eq_of_profile_filler hp).1]
        exact hbrackets p hmem
      · obtain ⟨p, hmem, hp⟩ := hprofile filler hfiller
        obtain ⟨q, hmem', hq⟩ := hprofile other hother
        rw [(eq_of_profile_filler hq).1] at hrule
        rw [(eq_of_profile_filler hp).1]
        exact hliterals p hmem q hmem' rule hrule
    exact (applyFrom_grown hinert (fun _ hf => hf) h hskips).2.2 u .refl

theorem apply_result_sample :
    let profiles : List Profile :=
      [⟨['P'], .none, .round, [⟨['b'], ['a'], ['1']⟩, ⟨['d'], ['z'], ['2']⟩]⟩,
        ⟨['Q'], .matchAnchor, ⟨'[', ']'⟩, [⟨['c'], ['a'], ['3']⟩]⟩]
    let book : RuleBook := ⟨[Filler.sample,
      ⟨⟨['Q'], ⟨'[', ']'⟩⟩, [⟨['c'], ['a'], ['3']⟩], .matchAnchor⟩]⟩
    let u := "P(a: 0,\nb: 1, z: Q[a: 0,\nc: 3,],\nd: 2,)".toList
    ofProfiles profiles = .ok book ∧
    book.apply 3 "P(a: 0, z: Q[a: 0,],)".toList = .ok (u, ⟨['P', ',', 'Q'], 2,
      [⟨0, 7, ['b']⟩, ⟨0, 26, ['d']⟩, ⟨17, 24, ['c']⟩], []⟩) ∧
    book.apply 3 u = .ok (u, ⟨['P', ',', 'Q'], 2, [], []⟩) := by
  intro profiles book u
  have hbook : ofProfiles profiles = .ok book := by rfl
  have hbrackets : ∀ p ∈ profiles, p.brackets.StandOut := by
    simp only [profiles, List.mem_cons, List.not_mem_nil, or_false]
    rintro p (rfl | rfl)
    · exact Brackets.standOut_round
    · exact ⟨by decide, by decide, by decide +kernel, by decide +kernel⟩
  have hliterals : ∀ p ∈ profiles, ∀ q ∈ profiles, ∀ rule ∈ q.rules,
      Target.Inert ⟨p.construct, p.brackets⟩ rule.literal := by
    simp only [profiles, List.mem_cons, List.not_mem_nil, or_false]
    rintro p (rfl | rfl) q (rfl | rfl) rule hrule <;>
      simp only [List.mem_cons, List.not_mem_nil, or_false] at hrule <;>
      rcases hrule with rfl | rfl <;> exact ⟨rfl, rfl⟩
  have h : book.apply 3 "P(a: 0, z: Q[a: 0,],)".toList = .ok (u, ⟨['P', ',', 'Q'], 2,
      [⟨0, 7, ['b']⟩, ⟨0, 26, ['d']⟩, ⟨17, 24, ['c']⟩], []⟩) := by rfl
  exact ⟨hbook, h, apply_result hbook hbrackets hliterals h rfl⟩

end RuleBook

end ArgFill
