import ArgFill.Call.Search
import ArgFill.Proofs.Locate
import ArgFill.Proofs.Results

/-!
# The search finds the calls

`Target.IsSite` says where a construct is called in a text, wherever that is, and
`Brackets.IsMatch` where the argument list of such a place ends, by counting. The search passes over
the text once and does not look for names inside a name it has found.

* `answer_search` : a search answers with the calls of the text, one at a time, and with nothing
  ever after;
* `mem_sites_iff` : it comes to every site. A name that reached into a site would end in a character
  of words, and no site begins behind one;
* `Brackets.isMatch_iff` : the depth comes down to nothing where the count says that a list ends;
* `locate_exact` : the calls are the sites with their matches, up to the first site without one.
-/

namespace ArgFill

/-! ## One at a time -/

namespace Search

/-- What a search has still to answer. -/
def answers (s : Search) : List (Except Fault Call) :=
  Target.throughFault ((Text.occurrencesFrom s.target.construct s.skip s.before s.offset
    s.rest).filterMap s.target.callAt?)

theorem nextFrom_answers (target : Target) (skip : Nat) (before : Option Char) (offset : Nat)
    (t : Text) :
    (nextFrom target skip before offset t).1 = (answers ⟨target, skip, before, offset, t⟩).head? ∧
      (nextFrom target skip before offset t).2.answers =
        (answers ⟨target, skip, before, offset, t⟩).tail := by
  induction t generalizing skip before offset with
  | nil => cases skip <;> exact ⟨rfl, rfl⟩
  | cons c t ih =>
    cases skip with
    | succ skip => exact ih _ _ _
    | zero =>
      rw [nextFrom]
      cases hc : Text.startsWith (c :: t) target.construct with
      | false =>
        simp only [answers, Text.occurrencesFrom_passed hc]
        exact ih _ _ _
      | true =>
        simp only [answers, Text.occurrencesFrom_found hc, if_true, List.filterMap_cons]
        cases target.callAt? ⟨offset, before, (c :: t).drop target.construct.length⟩ with
        | none => exact ih _ _ _
        | some r => cases r <;> exact ⟨rfl, rfl⟩

theorem answer_eq (s : Search) (k : Nat) : s.answer k = s.answers[k]? := by
  induction k generalizing s with
  | zero =>
    rw [answer, next, (nextFrom_answers _ _ _ _ _).1, List.head?_eq_getElem?]
  | succ k ih =>
    rw [answer, ih, next, (nextFrom_answers _ _ _ _ _).2, List.getElem?_tail]

end Search

/-- A search answers with the calls of the text. -/
theorem Target.answer_search (target : Target) (t : Text) (k : Nat) :
    (target.search t).answer k = (target.calls t)[k]? := by
  rw [Search.answer_eq]
  by_cases hname : target.construct.isEmpty = true
  · simp [search, Search.answers, calls, Text.occurrences, hname, Text.occurrencesFrom_nil,
      throughFault]
  · rw [search, if_neg hname, calls, Text.occurrences, if_neg hname]
    rfl

/-! ## Matches -/

namespace Brackets

variable {b : Brackets}

/-- At a closing bracket behind `t` one more list was closed than opened. -/
def Exceeds (b : Brackets) (t : Text) : Prop :=
  List.count b.closing (t ++ [b.closing]) = List.count b.opening (t ++ [b.closing]) + 1

/-- The text `inner` ends at the first closing bracket of `t` with which more lists are closed than
opened. -/
structure IsMatch (b : Brackets) (t inner : Text) : Prop where
  closes : ∃ back, t = inner ++ b.closing :: back
  exceeds : b.Exceeds inner
  first : ∀ x y, inner = x ++ b.closing :: y → ¬ b.Exceeds x

theorem exceeds_iff (hne : b.opening ≠ b.closing) {t : Text} :
    b.Exceeds t ↔ List.count b.closing t = List.count b.opening t := by
  have hclose : List.count b.opening [b.closing] = 0 :=
    List.count_singleton.trans (by simp [hne.symm])
  rw [Exceeds, List.count_append, List.count_append, hclose, List.count_singleton_self]
  omega

theorem isMatch_iff (hne : b.opening ≠ b.closing) {t inner : Text} : b.IsMatch t inner ↔
    (∃ back, t = inner ++ b.closing :: back) ∧ b.depth? 0 inner = some 0 := by
  constructor
  · rintro ⟨hback, hexceeds, hfirst⟩
    refine ⟨hback, ?_⟩
    rw [exceeds_iff hne] at hexceeds
    cases hdepth : b.depth? 0 inner with
    | none =>
      obtain ⟨x, y, rfl, hx⟩ := exists_of_depth?_eq_none hdepth
      have hcount := count_of_depth? hne hx
      exact absurd ((exceeds_iff hne).2 hcount) (hfirst x y rfl)
    | some e =>
      have hcount := count_of_depth? hne hdepth
      obtain rfl : e = 0 := by omega
      rfl
  · rintro ⟨hback, hdepth⟩
    refine ⟨hback, (exceeds_iff hne).2 (count_of_depth? hne hdepth), ?_⟩
    rintro x y rfl hexceeds
    rw [exceeds_iff hne] at hexceeds
    rw [depth?_append] at hdepth
    obtain ⟨e, hx, hy⟩ := Option.bind_eq_some_iff.1 hdepth
    have hcount := count_of_depth? hne hx
    obtain rfl : e = 0 := by omega
    rw [depth?_closing_zero hne] at hy
    cases hy

theorem closing?_eq_some_iff (hne : b.opening ≠ b.closing) {o e : Nat} {t : Text} :
    b.closing? o t = some e ↔ ∃ inner, b.IsMatch t inner ∧ e = o + inner.size := by
  rw [closing?, closingFrom?_eq_some_iff hne]
  constructor
  · rintro ⟨inner, back, ht, hdepth, he⟩
    exact ⟨inner, (isMatch_iff hne).2 ⟨⟨back, ht⟩, hdepth⟩, he⟩
  · rintro ⟨inner, hmatch, he⟩
    obtain ⟨⟨back, ht⟩, hdepth⟩ := (isMatch_iff hne).1 hmatch
    exact ⟨inner, back, ht, hdepth, he⟩

end Brackets

/-! ## Sites -/

/-- A place where a list opens behind a name: the first byte of the name, the opening bracket, and
the text behind it. -/
structure Site where
  start : Nat
  opened : Nat
  rest : Text
  deriving DecidableEq, Repr

namespace Target

variable {target : Target} {t : Text}

/-- The construct stands there, not as the tail of a longer name, and the first character behind it
that is no white space is the opening bracket. -/
def IsSite (target : Target) (t : Text) (s : Site) : Prop :=
  ∃ front blanks : Text, t = front ++ target.construct ++ blanks ++
      target.brackets.opening :: s.rest ∧
    endsWord front.getLast? = true ∧ (∀ c ∈ blanks, isBlankChar c = true) ∧
    isBlankChar target.brackets.opening = false ∧ s.start = front.size ∧
    s.opened = (front ++ target.construct ++ blanks).size

def Spans (target : Target) (s : Site) (call : Call) : Prop :=
  ∃ inner, target.brackets.IsMatch s.rest inner ∧
    call = ⟨s.start, s.opened + target.brackets.opening.utf8Size,
      s.opened + target.brackets.opening.utf8Size + inner.size⟩

def siteAt (target : Target) (o : Occurrence) : Site :=
  ⟨o.offset, o.offset + target.construct.size + Text.size (o.after.takeWhile isBlankChar),
    (o.after.dropWhile isBlankChar).tail⟩

/-- The sites of a text that the search comes to. -/
def sites (target : Target) (t : Text) : List Site :=
  ((Text.occurrencesFrom target.construct 0 none 0 t).filter target.opensAt).map target.siteAt

def callOf (target : Target) (s : Site) : Except Fault Call :=
  target.callOrFault s.start s.opened s.rest

theorem callOf_eq_ok_iff (hne : target.brackets.opening ≠ target.brackets.closing) {s : Site}
    {call : Call} : target.callOf s = .ok call ↔ target.Spans s call := by
  rw [callOf, callOrFault, Spans]
  cases hend : target.brackets.closing? (s.opened + target.brackets.opening.utf8Size) s.rest with
  | none =>
    constructor
    · intro h
      cases h
    · rintro ⟨inner, hmatch, -⟩
      rw [(Brackets.closing?_eq_some_iff hne).2 ⟨inner, hmatch, rfl⟩] at hend
      cases hend
  | some e =>
    obtain ⟨inner, hmatch, rfl⟩ := (Brackets.closing?_eq_some_iff hne).1 hend
    constructor
    · intro h
      exact ⟨inner, hmatch, (Except.ok.inj h).symm⟩
    · rintro ⟨inner', hmatch', rfl⟩
      rw [(Brackets.closing?_eq_some_iff hne).2 ⟨inner', hmatch', rfl⟩] at hend
      rw [Option.some.inj hend]

theorem of_callOf_eq_error (hne : target.brackets.opening ≠ target.brackets.closing) {s : Site}
    {fault : Fault} (h : target.callOf s = .error fault) :
    fault = .unclosed target.construct s.opened ∧
      ∀ inner, ¬ target.brackets.IsMatch s.rest inner := by
  rw [callOf, callOrFault] at h
  cases hend : target.brackets.closing? (s.opened + target.brackets.opening.utf8Size) s.rest with
  | some e =>
    rw [hend] at h
    cases h
  | none =>
    rw [hend] at h
    refine ⟨(Except.error.inj h).symm, fun inner hmatch => ?_⟩
    rw [(Brackets.closing?_eq_some_iff hne).2 ⟨inner, hmatch, rfl⟩] at hend
    cases hend

theorem siteAt_eq {o : Occurrence} (hopen : isBlankChar target.brackets.opening = false)
    {blanks rest : Text} (hblanks : ∀ c ∈ blanks, isBlankChar c = true)
    (hafter : o.after = blanks ++ target.brackets.opening :: rest) :
    target.siteAt o = ⟨o.offset, o.offset + target.construct.size + blanks.size, rest⟩ := by
  rw [siteAt, hafter, List.takeWhile_append_of_pos hblanks, List.dropWhile_append_of_pos hblanks,
    List.takeWhile_cons_of_neg (by simp [hopen]), List.dropWhile_cons_of_neg (by simp [hopen]),
    List.append_nil, List.tail_cons]

theorem callAt?_of_opensAt {o : Occurrence} (h : target.opensAt o = true) :
    target.callAt? o = some (target.callOf (target.siteAt o)) := by
  obtain ⟨hbefore, hopen, blanks, rest, hafter, hblanks⟩ := exists_of_opensAt h
  rw [callAt?_eq hbefore hopen hblanks hafter, siteAt_eq hopen hblanks hafter, callOf]

theorem found_eq_map_sites (hname : target.construct ≠ []) (t : Text) :
    target.found t = (target.sites t).map target.callOf := by
  rw [found_eq hname, sites, List.map_map, ← List.filterMap_eq_map, List.filterMap_filter]
  refine List.filterMap_congr fun o _ => ?_
  cases ho : target.opensAt o with
  | false => simp [callAt?_of_opensAt_eq_false ho]
  | true => simp [callAt?_of_opensAt ho]

/-- The search comes to every site. -/
theorem mem_sites_iff (hname : target.construct ≠ [])
    (hword : ∀ c ∈ target.construct, isWordChar c = true) {s : Site} :
    s ∈ target.sites t ↔ target.IsSite t s := by
  rw [sites, List.mem_map]
  constructor
  · rintro ⟨o, ho, rfl⟩
    obtain ⟨ho, hopens⟩ := List.mem_filter.1 ho
    obtain ⟨front, rfl, hoffset, hlast⟩ := Text.mem_occurrencesFrom ho
    obtain ⟨hbefore, hopen, blanks, rest, hafter, hblanks⟩ := exists_of_opensAt hopens
    rw [hlast, Option.or_none] at hbefore
    rw [siteAt_eq hopen hblanks hafter]
    refine ⟨front, blanks, by simp [hafter], hbefore, hblanks, hopen, by simp [hoffset], ?_⟩
    simp only [Text.size_append]
    omega
  · rintro ⟨front, blanks, rfl, hbefore, hblanks, hopen, hstart, hopened⟩
    have hmem := Text.mem_occurrencesFrom_of_endsWord_getLast? hname hword hbefore
      (blanks ++ target.brackets.opening :: s.rest)
    refine ⟨_, List.mem_filter.2 ⟨by simpa using hmem, ?_⟩, ?_⟩
    · simp [opensAt, hbefore, List.dropWhile_append_of_pos hblanks, hopen]
    · rw [siteAt_eq hopen hblanks rfl]
      simp only [Text.size_append] at hopened
      show (⟨front.size, front.size + target.construct.size + blanks.size, s.rest⟩ : Site) = s
      rw [← hopened, ← hstart]

theorem pairwise_sites (hname : target.construct ≠ []) (t : Text) :
    (target.sites t).Pairwise fun a s => a.start < s.start := by
  rw [sites, List.pairwise_map]
  refine List.Pairwise.filter _
    (Text.pairwise_occurrencesFrom hname (fun o b a ha => ?_) 0 none 0 t)
  obtain ⟨pre, -, hoffset, -⟩ := Text.mem_occurrencesFrom ha
  obtain ⟨c, w, hw⟩ := List.exists_cons_of_ne_nil hname
  have := c.utf8Size_pos
  simp only [siteAt, hoffset, hw, Text.size_cons]
  omega

/-! ## Up to the first fault -/

theorem throughFault_append {α : Type} (as : List α) (rest : List (Except Fault α)) :
    throughFault (as.map Except.ok ++ rest) = as.map Except.ok ++ throughFault rest := by
  induction as with
  | nil => rfl
  | cons a as ih => exact congrArg (Except.ok a :: ·) ih

/-- **The calls are the sites with their matches.** The sites are all places where the construct is
called, from left to right. If each has a match, the calls are located, and a search answers with
them and then with nothing. Otherwise the fault is that of the first site without a match, and a
search answers with the calls before it, the fault, and then with nothing. -/
theorem locate_exact (hname : target.construct ≠ [])
    (hword : ∀ c ∈ target.construct, isWordChar c = true)
    (hne : target.brackets.opening ≠ target.brackets.closing) (t : Text) :
    ∃ sites : List Site, (∀ s, s ∈ sites ↔ target.IsSite t s) ∧
      sites.Pairwise (fun a s => a.start < s.start) ∧
      ((∃ calls, List.Forall₂ target.Spans sites calls ∧ target.locate t = .ok calls ∧
          ∀ k, (target.search t).answer k = (calls.map Except.ok)[k]?) ∨
        ∃ before site behind calls, sites = before ++ site :: behind ∧
          List.Forall₂ target.Spans before calls ∧
          (∀ inner, ¬ target.brackets.IsMatch site.rest inner) ∧
          target.locate t = .error (.unclosed target.construct site.opened) ∧
          ∀ k, (target.search t).answer k =
            (calls.map Except.ok ++ [.error (.unclosed target.construct site.opened)])[k]?) := by
  refine ⟨target.sites t, fun s => mem_sites_iff hname hword, pairwise_sites hname t, ?_⟩
  have hanswer : ∀ k, (target.search t).answer k = (throughFault (target.found t))[k]? :=
    answer_search target t
  have hlocate : target.locate t = (throughFault (target.found t)).mapM id := rfl
  have hfound := found_eq_map_sites hname t
  rcases forall₂_or_exists_error target.callOf (target.sites t) with
    ⟨calls, hcalls⟩ | ⟨before, site, behind, calls, fault, hsites, hcalls, hfault⟩
  · refine Or.inl ⟨calls, hcalls.imp fun s call => (callOf_eq_ok_iff hne).1, ?_, fun k => ?_⟩
    · rw [locate_eq_ok_iff, hfound, map_eq_of_forall₂ hcalls]
    · have := throughFault_append calls []
      rw [List.append_nil, throughFault, List.append_nil] at this
      rw [hanswer, hfound, map_eq_of_forall₂ hcalls, this]
  · obtain ⟨rfl, hnone⟩ := of_callOf_eq_error hne hfault
    have hthrough : throughFault (target.found t) =
        calls.map Except.ok ++ [.error (.unclosed target.construct site.opened)] := by
      rw [hfound, hsites, List.map_append, List.map_cons, map_eq_of_forall₂ hcalls, hfault,
        throughFault_append, throughFault]
    refine Or.inr ⟨before, site, behind, calls, hsites,
      hcalls.imp fun s call => (callOf_eq_ok_iff hne).1, hnone, ?_, fun k => ?_⟩
    · rw [hlocate, hthrough, mapM_append_error]
    · rw [hanswer, hthrough]

/-- Brackets of two bytes. The first `Q` is the tail of a name, the second one is a call with another
one in it, and the last one does not end. -/
theorem locate_exact_sample :
    let target : Target := ⟨['Q'], ⟨'«', '»'⟩⟩
    let t := "xQ«Q «Q«»» Q«".toList
    target.construct ≠ [] ∧ (∀ c ∈ target.construct, isWordChar c = true) ∧
    target.brackets.opening ≠ target.brackets.closing ∧
    target.locate t = .error (.unclosed ['Q'] 17) ∧
    ∃ sites : List Site, (∀ s, s ∈ sites ↔ target.IsSite t s) ∧
      sites.Pairwise (fun a s => a.start < s.start) ∧
      ((∃ calls, List.Forall₂ target.Spans sites calls ∧ target.locate t = .ok calls ∧
          ∀ k, (target.search t).answer k = (calls.map Except.ok)[k]?) ∨
        ∃ before site behind calls, sites = before ++ site :: behind ∧
          List.Forall₂ target.Spans before calls ∧
          (∀ inner, ¬ target.brackets.IsMatch site.rest inner) ∧
          target.locate t = .error (.unclosed target.construct site.opened) ∧
          ∀ k, (target.search t).answer k =
            (calls.map Except.ok ++ [.error (.unclosed target.construct site.opened)])[k]?) := by
  intro target t
  have hword : ∀ c ∈ target.construct, isWordChar c = true := List.all_eq_true.1 rfl
  have hne : target.brackets.opening ≠ target.brackets.closing := by decide
  have hlocate : target.locate t = .error (.unclosed ['Q'] 17) := by rfl
  exact ⟨List.cons_ne_nil _ _, hword, hne, hlocate,
    locate_exact (List.cons_ne_nil _ _) hword hne t⟩

end Target

end ArgFill
