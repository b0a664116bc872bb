import ArgFill.Call.Locate
import ArgFill.Proofs.Balance
import ArgFill.Proofs.Names
import ArgFill.Proofs.Occurrence

/-!
# What is located

* `locate_eq_ok_iff` : the located calls are those at the occurrences of the name, all of them;
* `exists_of_callAt?_eq_ok` : a located call, spelled out in the text;
* `pairwise_locate` : located calls are in order, by name and by argument list;
* `pairwise_locate_apart` : of two located calls the later one stands behind the earlier one or in
  its argument list;
* `locate_forest` : so the calls of a text make up a forest, and the brackets in each argument list
  pair up;
* `remeasure_of_hasArgs` : measuring a call finds the argument list that stands there.
-/

namespace ArgFill

/-- The argument list of a call as it stands in a text: right behind an opening bracket, up to the
partner of that bracket. -/
def Call.HasArgs (b : Brackets) (t : Text) (call : Call) (args : Text) : Prop :=
  ∃ front back, t = front ++ b.opening :: (args ++ b.closing :: back) ∧
    call.argsStart = Text.size front + b.opening.utf8Size ∧
    call.argsEnd = call.argsStart + args.size ∧ b.depth? 0 args = some 0

theorem Call.HasArgs.args? {b : Brackets} {t args : Text} {call : Call}
    (h : call.HasArgs b t args) : call.args? t = some args := by
  obtain ⟨front, back, rfl, hstart, hend, -⟩ := h
  refine Text.between?_eq_some_iff.2 ⟨front ++ [b.opening], b.closing :: back, by simp, ?_, ?_⟩
  · simp [hstart]
  · simp [hend, hstart]; omega

theorem Call.HasArgs.argsEnd_eq {b : Brackets} {t args : Text} {call : Call}
    (h : call.HasArgs b t args) : call.argsEnd = call.argsStart + args.size := by
  obtain ⟨_, _, -, -, hend, -⟩ := h
  exact hend

namespace Target

variable {target : Target}

/-! ## Occurrences that are calls -/

def opensAt (target : Target) (o : Occurrence) : Bool :=
  endsWord o.before && (o.after.dropWhile isBlankChar).head? == some target.brackets.opening

theorem opensAt_eq_view (target : Target) (o : Occurrence) : target.opensAt o =
    (o.view.1 && (o.view.2.dropWhile isBlankChar).head? == some target.brackets.opening) := rfl

def callOrFault (target : Target) (start opened : Nat) (rest : Text) : Except Fault Call :=
  match target.brackets.closing? (opened + target.brackets.opening.utf8Size) rest with
  | some argsEnd => .ok ⟨start, opened + target.brackets.opening.utf8Size, argsEnd⟩
  | none => .error (.unclosed target.construct opened)

theorem callAt?_of_opensAt_eq_false {o : Occurrence} (h : target.opensAt o = false) :
    target.callAt? o = none := by
  unfold opensAt at h
  unfold callAt?
  split
  · rfl
  · next c rest heq =>
    rw [heq] at h
    rw [if_neg]
    simpa using h

theorem callAt?_eq {o : Occurrence} (hbefore : endsWord o.before = true)
    (hopen : isBlankChar target.brackets.opening = false) {blanks rest : Text}
    (hblanks : ∀ c ∈ blanks, isBlankChar c = true)
    (hafter : o.after = blanks ++ target.brackets.opening :: rest) :
    target.callAt? o = some (target.callOrFault o.offset
      (o.offset + target.construct.size + blanks.size) rest) := by
  have hdrop : o.after.dropWhile isBlankChar = target.brackets.opening :: rest := by
    rw [hafter, List.dropWhile_append_of_pos hblanks, List.dropWhile_cons_of_neg (by simp [hopen])]
  have htake : o.after.takeWhile isBlankChar = blanks := by
    rw [hafter, List.takeWhile_append_of_pos hblanks, List.takeWhile_cons_of_neg (by simp [hopen]),
      List.append_nil]
  rw [callAt?, hdrop, callOrFault]
  simp only [hbefore, htake, beq_self_eq_true, Bool.and_self, if_true]
  cases target.brackets.closing? _ rest <;> rfl

/-- White space and an opening bracket follow the occurrence that is a call. -/
theorem exists_of_opensAt {o : Occurrence} (h : target.opensAt o = true) :
    endsWord o.before = true ∧ isBlankChar target.brackets.opening = false ∧
      ∃ blanks rest, o.after = blanks ++ target.brackets.opening :: rest ∧
        ∀ c ∈ blanks, isBlankChar c = true := by
  rw [opensAt, Bool.and_eq_true, beq_iff_eq, List.head?_eq_some_iff] at h
  obtain ⟨hbefore, rest, hrest⟩ := h
  refine ⟨hbefore, ?_, o.after.takeWhile isBlankChar, rest, ?_, fun c hc => ?_⟩
  · have := List.head?_dropWhile_not isBlankChar o.after
    rw [hrest] at this
    simpa using this
  · rw [← hrest, List.takeWhile_append_dropWhile]
  · exact List.all_eq_true.1 List.all_takeWhile c hc

theorem opensAt_eq_false_of_not_mem {o : Occurrence} (h : target.brackets.opening ∉ o.after) :
    target.opensAt o = false := by
  cases hopens : target.opensAt o with
  | false => rfl
  | true =>
    obtain ⟨-, -, blanks, rest, hafter, -⟩ := exists_of_opensAt hopens
    rw [hafter] at h
    exact absurd (List.mem_append_right blanks List.mem_cons_self) h

theorem opensAt_of_callAt? {o : Occurrence} {r : Except Fault Call}
    (h : target.callAt? o = some r) : target.opensAt o = true := by
  cases ho : target.opensAt o with
  | true => rfl
  | false => rw [callAt?_of_opensAt_eq_false ho] at h; cases h

theorem differ_of_callAt? {o : Occurrence} {call : Call} (h : target.callAt? o = some (.ok call)) :
    target.brackets.opening ≠ target.brackets.closing := by
  intro heq
  obtain ⟨hbefore, hopen, blanks, rest, hafter, hblanks⟩ :=
    exists_of_opensAt (opensAt_of_callAt? h)
  rw [callAt?_eq hbefore hopen hblanks hafter, callOrFault, Brackets.closing?,
    Brackets.closingFrom?_of_eq heq] at h
  cases h

/-- A located call, spelled out: white space, an opening bracket, the arguments and the partner of
the bracket follow the name. -/
theorem exists_of_callAt?_eq_ok {o : Occurrence} {call : Call}
    (h : target.callAt? o = some (.ok call)) :
    ∃ blanks args back : Text,
      o.after = blanks ++ target.brackets.opening :: (args ++ target.brackets.closing :: back) ∧
      (∀ c ∈ blanks, isBlankChar c = true) ∧ isBlankChar target.brackets.opening = false ∧
      target.brackets.depth? 0 args = some 0 ∧ call.start = o.offset ∧
      call.argsStart = o.offset + target.construct.size + Text.size blanks +
        target.brackets.opening.utf8Size ∧
      call.argsEnd = call.argsStart + args.size := by
  have hne := differ_of_callAt? h
  obtain ⟨hbefore, hopen, blanks, rest, hafter, hblanks⟩ :=
    exists_of_opensAt (opensAt_of_callAt? h)
  rw [callAt?_eq hbefore hopen hblanks hafter, Option.some.injEq, callOrFault] at h
  split at h
  · next argsEnd hend =>
    obtain ⟨args, back, rfl, hargs, rfl⟩ := (Brackets.closingFrom?_eq_some_iff hne).1 hend
    obtain rfl := Except.ok.inj h
    exact ⟨blanks, args, back, hafter, hblanks, hopen, hargs, rfl, rfl, rfl⟩
  · cases h

/-! ## All calls of a text -/

/-- The calls and unclosed lists of a text, from left to right. -/
def found (target : Target) (t : Text) : List (Except Fault Call) :=
  (t.occurrences target.construct).filterMap target.callAt?

theorem found_eq (hname : target.construct ≠ []) (t : Text) : target.found t =
    (Text.occurrencesFrom target.construct 0 none 0 t).filterMap target.callAt? := by
  rw [found, Text.occurrences_eq hname]

theorem mapM_throughFault_eq_ok_iff {α : Type} {l : List (Except Fault α)} {as : List α} :
    (throughFault l).mapM id = Except.ok as ↔ l = as.map Except.ok := by
  induction l generalizing as with
  | nil => simp [throughFault, pure, Except.pure, eq_comm]
  | cons r l ih =>
    cases r with
    | error f => cases as <;> simp [throughFault, bind, Except.bind]
    | ok a =>
      simp only [throughFault, List.mapM_cons, id, bind, Except.bind, pure, Except.pure]
      cases hl : (throughFault l).mapM id with
      | error f =>
        cases as with
        | nil => simp
        | cons a' as =>
          have : l ≠ as.map Except.ok := fun h => by rw [ih.2 h] at hl; cases hl
          simp [this]
      | ok as' =>
        rw [ih.1 hl]
        cases as with
        | nil => simp
        | cons a' as => simp [List.map_inj_right]

theorem locate_eq_ok_iff {t : Text} {calls : List Call} :
    target.locate t = .ok calls ↔ target.found t = calls.map .ok :=
  mapM_throughFault_eq_ok_iff

theorem mem_of_mapM_throughFault {α : Type} {l : List (Except Fault α)} {fault : Fault}
    (h : (throughFault l).mapM id = Except.error fault) : Except.error fault ∈ l := by
  induction l with
  | nil => cases h
  | cons r l ih =>
    cases r with
    | error fault' =>
      obtain rfl : fault' = fault := Except.error.inj h
      exact List.mem_cons_self
    | ok a =>
      simp only [throughFault, List.mapM_cons, id, bind, Except.bind] at h
      split at h
      · next fault' hrest =>
        obtain rfl := Except.error.inj h
        exact List.mem_cons_of_mem _ (ih hrest)
      · cases h

theorem eq_unclosed_of_locate {t : Text} {fault : Fault} (h : target.locate t = .error fault) :
    ∃ offset, fault = .unclosed target.construct offset := by
  obtain ⟨o, -, ho⟩ := List.mem_filterMap.1 (mem_of_mapM_throughFault h)
  obtain ⟨hbefore, hopen, blanks, rest, hafter, hblanks⟩ := exists_of_opensAt (opensAt_of_callAt? ho)
  rw [callAt?_eq hbefore hopen hblanks hafter, Option.some.injEq, callOrFault] at ho
  split at ho
  · cases ho
  · exact ⟨_, (Except.error.inj ho).symm⟩

theorem mem_of_mem_throughFault {α : Type} {l : List (Except Fault α)} {r : Except Fault α}
    (h : r ∈ throughFault l) : r ∈ l := by
  induction l with
  | nil => exact h
  | cons s l ih =>
    cases s with
    | error fault =>
      obtain rfl := List.mem_singleton.1 h
      exact List.mem_cons_self
    | ok a =>
      rcases List.mem_cons.1 h with rfl | h
      · exact List.mem_cons_self
      · exact List.mem_cons_of_mem _ (ih h)

theorem mem_found_of_mem_calls {t : Text} {r : Except Fault Call} (h : r ∈ target.calls t) :
    r ∈ target.found t :=
  mem_of_mem_throughFault h

theorem ne_nil_of_mem_found {t : Text} {r : Except Fault Call} (h : r ∈ target.found t) :
    target.construct ≠ [] := by
  intro hnil
  rw [found, hnil] at h
  cases h

theorem exists_occurrence_of_mem_found {t : Text} {call : Call} (h : .ok call ∈ target.found t) :
    ∃ o ∈ Text.occurrencesFrom target.construct 0 none 0 t, target.callAt? o = some (.ok call) := by
  rwa [found_eq (ne_nil_of_mem_found h), List.mem_filterMap] at h

theorem mem_found_of_mem_locate {t : Text} {calls : List Call} (h : target.locate t = .ok calls)
    {call : Call} (hc : call ∈ calls) : .ok call ∈ target.found t := by
  rw [locate_eq_ok_iff.1 h]
  exact List.mem_map_of_mem hc

theorem exists_occurrence_of_mem_locate {t : Text} {calls : List Call}
    (h : target.locate t = .ok calls) {call : Call} (hc : call ∈ calls) :
    ∃ o ∈ Text.occurrencesFrom target.construct 0 none 0 t, target.callAt? o = some (.ok call) :=
  exists_occurrence_of_mem_found (mem_found_of_mem_locate h hc)

theorem differ_of_mem_found {t : Text} {call : Call} (h : .ok call ∈ target.found t) :
    target.brackets.opening ≠ target.brackets.closing := by
  obtain ⟨o, -, hcall⟩ := exists_occurrence_of_mem_found h
  exact differ_of_callAt? hcall

theorem differ_of_mem_locate {t : Text} {calls : List Call} (h : target.locate t = .ok calls)
    {call : Call} (hc : call ∈ calls) : target.brackets.opening ≠ target.brackets.closing :=
  differ_of_mem_found (mem_found_of_mem_locate h hc)

theorem exists_hasArgs_of_mem_found {t : Text} {call : Call} (h : .ok call ∈ target.found t) :
    ∃ args, call.HasArgs target.brackets t args := by
  obtain ⟨o, ho, hcall⟩ := exists_occurrence_of_mem_found h
  obtain ⟨pre, rfl, hoffset, -⟩ := Text.mem_occurrencesFrom ho
  obtain ⟨blanks, args, back, hafter, -, -, hdepth, -, hstart, hend⟩ := exists_of_callAt?_eq_ok hcall
  refine ⟨args, pre ++ target.construct ++ blanks, back, by simp [hafter], ?_, hend, hdepth⟩
  simp only [Text.size_append]
  omega

theorem exists_hasArgs_of_mem_locate {t : Text} {calls : List Call}
    (h : target.locate t = .ok calls) {call : Call} (hc : call ∈ calls) :
    ∃ args, call.HasArgs target.brackets t args :=
  exists_hasArgs_of_mem_found (mem_found_of_mem_locate h hc)

theorem start_lt_argsStart_of_mem_found {t : Text} {call : Call} (h : .ok call ∈ target.found t) :
    call.start < call.argsStart := by
  obtain ⟨o, -, hcall⟩ := exists_occurrence_of_mem_found h
  obtain ⟨blanks, -, -, -, -, -, -, hstart, hargs, -⟩ := exists_of_callAt?_eq_ok hcall
  have := target.brackets.opening.utf8Size_pos
  omega

theorem start_lt_argsStart_of_mem_locate {t : Text} {calls : List Call}
    (h : target.locate t = .ok calls) {call : Call} (hc : call ∈ calls) :
    call.start < call.argsStart :=
  start_lt_argsStart_of_mem_found (mem_found_of_mem_locate h hc)

/-! ## Measuring -/

/-- Measuring a call whose opening bracket stands where it did looks for the partner of that
bracket. -/
theorem remeasure_eq (hone : target.brackets.opening.utf8Size = 1) {front rest : Text} {call : Call}
    (hstart : call.argsStart = front.size + target.brackets.opening.utf8Size) :
    target.remeasure (front ++ target.brackets.opening :: rest) call =
      match target.brackets.closing? call.argsStart rest with
      | some argsEnd => .ok { call with argsEnd }
      | none => .error (.unclosed target.construct call.openOffset) := by
  have hbody : call.openOffset + target.brackets.opening.utf8Size = call.argsStart := by
    simp only [Call.openOffset]
    omega
  have hcut : Text.cut? call.argsStart (front ++ target.brackets.opening :: rest) =
      some (front ++ [target.brackets.opening], rest) :=
    Text.cut?_eq_some_iff.2 ⟨by simp, by simp [hstart]⟩
  simp only [remeasure, hbody, hcut, Fault.ofPlace, bind, Except.bind]
  cases target.brackets.closing? call.argsStart rest <;> rfl

theorem remeasure_of_hasArgs (hone : target.brackets.opening.utf8Size = 1)
    (hne : target.brackets.opening ≠ target.brackets.closing) {t args : Text} {call now : Call}
    (h : now.HasArgs target.brackets t args) (hstart : call.argsStart = now.argsStart) :
    target.remeasure t call = .ok { call with argsEnd := now.argsEnd } := by
  obtain ⟨front, back, rfl, hfront, hend, hdepth⟩ := h
  rw [remeasure_eq hone (hstart.trans hfront), Brackets.closing?,
    (Brackets.closingFrom?_eq_some_iff hne).2 ⟨args, back, rfl, hdepth, rfl⟩, hstart, ← hend]

/-! ## Order -/

/-- No occurrence of a name begins in white space. -/
theorem le_offset_of_mem_occurrencesFrom {w : Text} (hw : w ≠ [])
    (hblank : ∀ c ∈ w, isBlankChar c = false) {b : Option Char} {o : Nat} {blanks rest : Text}
    (hblanks : ∀ c ∈ blanks, isBlankChar c = true) {a : Occurrence}
    (ha : a ∈ Text.occurrencesFrom w 0 b o (blanks ++ rest)) : o + blanks.size ≤ a.offset := by
  obtain ⟨pre, hpre, hoffset, -⟩ := Text.mem_occurrencesFrom ha
  rw [List.append_assoc] at hpre
  rcases List.append_eq_append_iff.1 hpre with ⟨mid, rfl, -⟩ | ⟨mid, rfl, hmid⟩
  · rw [hoffset, Text.size_append]
    omega
  · cases mid with
    | nil => simp [hoffset]
    | cons c mid =>
      obtain ⟨d, v, rfl⟩ := List.exists_cons_of_ne_nil hw
      obtain rfl : d = c := (List.cons.inj hmid).1
      have h1 := hblanks d (by simp)
      rw [hblank d (by simp)] at h1
      cases h1

theorem pairwise_locate (hname : target.construct.isQualifiedName = true) {t : Text}
    {calls : List Call} (h : target.locate t = .ok calls) :
    calls.Pairwise fun a c => a.start < c.start ∧ a.argsStart < c.argsStart := by
  have hw := Text.ne_nil_of_isQualifiedName hname
  have hsize : 0 < target.construct.size := by
    obtain ⟨d, v, hv⟩ := List.exists_cons_of_ne_nil hw
    have := d.utf8Size_pos
    rw [hv, Text.size_cons]
    omega
  rw [locate_eq_ok_iff, found_eq hw] at h
  have hpair : (calls.map Except.ok).Pairwise fun r s : Except Fault Call => ∀ a c, r = .ok a →
      s = .ok c → a.start < c.start ∧ a.argsStart < c.argsStart := by
    rw [← h, List.pairwise_filterMap]
    refine Text.pairwise_occurrencesFrom hw (fun o b p hp r hr s hs a c ha hc => ?_) 0 none 0 t
    subst ha hc
    obtain ⟨blanks, args, back, hafter, hblanks, -, -, hstart, hargs, -⟩ :=
      exists_of_callAt?_eq_ok hr
    obtain ⟨blanks', -, -, -, -, -, -, hstart', hargs', -⟩ := exists_of_callAt?_eq_ok hs
    rw [hafter] at hp
    have hle := le_offset_of_mem_occurrencesFrom hw
      (fun c hc => Text.isBlankChar_eq_false_of_mem hname hc) hblanks hp
    omega
  rw [List.pairwise_map] at hpair
  exact hpair.imp fun hac => hac _ _ rfl rfl

theorem nodup_starts (hname : target.construct.isQualifiedName = true) {t : Text}
    {calls : List Call} (h : target.locate t = .ok calls) : (calls.map Call.start).Nodup :=
  List.pairwise_map.2 ((pairwise_locate hname h).imp fun hlt => Nat.ne_of_lt hlt.1)

/-- From the last call to the first, the argument lists begin further and further to the left. -/
theorem pairwise_reverse_locate (hname : target.construct.isQualifiedName = true) {t : Text}
    {calls : List Call} (h : target.locate t = .ok calls) :
    calls.reverse.Pairwise fun call before => before.argsStart < call.argsStart :=
  List.pairwise_reverse.2 ((pairwise_locate hname h).imp fun hac => hac.2)

/-- The call whose name stands in the argument list of another one ends there too: what the list
closes at its end, the inner search has closed before. -/
theorem size_lt_of_nested (b : Brackets) (hne : b.opening ≠ b.closing)
    {front rest args back back' : Text}
    (hdepth : b.depth? 0 (front ++ b.opening :: rest) = some 0) (hargs : b.depth? 0 args = some 0)
    (h : rest ++ b.closing :: back = args ++ b.closing :: back') : args.size < rest.size := by
  rw [Brackets.depth?_append] at hdepth
  obtain ⟨d, -, hd⟩ := Option.bind_eq_some_iff.1 hdepth
  rw [Brackets.depth?_opening] at hd
  obtain ⟨inner, more, rfl, hinner⟩ :=
    Brackets.exists_of_depth?_eq_none (Brackets.depth?_eq_none_of_lt hd (Nat.succ_pos d))
  have hend : b.closingFrom? 0 0 (inner ++ b.closing :: more ++ b.closing :: back) =
      some (0 + Text.size inner) :=
    (Brackets.closingFrom?_eq_some_iff hne).2 ⟨inner, more ++ b.closing :: back, by simp, hinner, rfl⟩
  rw [h, (Brackets.closingFrom?_eq_some_iff hne).2 ⟨args, back', rfl, hargs, rfl⟩] at hend
  have hsame : 0 + args.size = 0 + Text.size inner := Option.some.inj hend
  have := b.closing.utf8Size_pos
  rw [Text.size_append, Text.size_cons]
  omega

theorem exists_of_nested (b : Brackets) (hne : b.opening ≠ b.closing)
    (hblank : isBlankChar b.closing = false) {front inner blanks args back back' : Text}
    (hdepth : b.depth? 0 (front ++ inner) = some 0) (hblanks : ∀ c ∈ blanks, isBlankChar c = true)
    (hargs : b.depth? 0 args = some 0)
    (h : inner ++ b.closing :: back = blanks ++ b.opening :: (args ++ b.closing :: back')) :
    ∃ rest, inner = blanks ++ b.opening :: rest ∧ args.size < Text.size rest := by
  rcases List.append_eq_append_iff.1 h with ⟨mid, rfl, hmid⟩ | ⟨mid, rfl, hmid⟩
  · cases mid with
    | nil => exact absurd (List.cons.inj hmid).1.symm hne
    | cons e mid =>
      have h1 := hblanks e (by simp)
      rw [← (List.cons.inj hmid).1, hblank] at h1
      cases h1
  · cases mid with
    | nil => exact absurd (List.cons.inj hmid).1 hne
    | cons e rest =>
      obtain ⟨rfl, hrest⟩ := List.cons.inj hmid
      rw [← List.append_assoc] at hdepth
      exact ⟨rest, rfl, size_lt_of_nested b hne hdepth hargs hrest.symm⟩

/-- Of two located calls the later one stands behind the earlier one or in its argument list. -/
theorem pairwise_locate_apart (hname : target.construct.isQualifiedName = true)
    (hopen : target.brackets.opening ∉ target.construct)
    (hclose : target.brackets.closing ∉ target.construct)
    (hblank : isBlankChar target.brackets.closing = false) {t : Text} {calls : List Call}
    (h : target.locate t = .ok calls) :
    calls.Pairwise fun a c => a.argsEnd < c.start ∨ a.contains c = true := by
  have hw := Text.ne_nil_of_isQualifiedName hname
  rw [locate_eq_ok_iff, found_eq hw] at h
  have hpair : (calls.map Except.ok).Pairwise fun r s : Except Fault Call => ∀ a c, r = .ok a →
      s = .ok c → a.argsEnd < c.start ∨ a.contains c = true := by
    rw [← h, List.pairwise_filterMap]
    refine Text.pairwise_occurrencesFrom hw (fun o b p hp r hr s hs a c ha hc => ?_) 0 none 0 t
    subst ha hc
    have hne := differ_of_callAt? hr
    obtain ⟨blanks, args, back, hafter, hblanks, -, hdepth, -, hargs, hend⟩ :=
      exists_of_callAt?_eq_ok hr
    obtain ⟨blanks', args', back', hafter', hblanks', -, hdepth', hstart', hargs', hend'⟩ :=
      exists_of_callAt?_eq_ok hs
    rw [hafter, Text.occurrencesFrom_append_cons hopen hw (Nat.zero_le _),
      Text.occurrencesFrom_append_cons hclose hw (Nat.zero_le _), List.mem_append,
      List.mem_append] at hp
    rcases hp with hp | hp | hp
    · -- no name begins in the white space before the bracket
      obtain ⟨q, hq, -⟩ := List.mem_map.1 hp
      obtain ⟨pre, hpre, -, -⟩ := Text.mem_occurrencesFrom hq
      obtain ⟨d, v, hv⟩ := List.exists_cons_of_ne_nil hw
      have h1 := hblanks d (by rw [hpre, hv]; simp)
      rw [Text.isBlankChar_eq_false_of_mem hname (hv ▸ List.mem_cons_self)] at h1
      cases h1
    · obtain ⟨q, hq, rfl⟩ := List.mem_map.1 hp
      obtain ⟨pre, hpre, hoffset, -⟩ := Text.mem_occurrencesFrom hq
      simp only [Occurrence.extend] at hafter' hstart' hargs'
      rw [hpre] at hdepth hend
      obtain ⟨rest, hrest, hlt⟩ :=
        exists_of_nested target.brackets hne hblank hdepth hblanks' hdepth' hafter'
      rw [hrest] at hend
      simp only [Text.size_append, Text.size_cons] at hend hoffset
      right
      simp only [Call.contains, Bool.and_eq_true, decide_eq_true_eq]
      omega
    · obtain ⟨pre, -, hoffset, -⟩ := Text.mem_occurrencesFrom hp
      have := target.brackets.closing.utf8Size_pos
      left
      omega
  rw [List.pairwise_map] at hpair
  exact hpair.imp fun hac => hac _ _ rfl rfl

/-! ## A forest -/

/-- **The calls of a text make up a forest.** Of two calls the later one stands behind the earlier
one or in its argument list, no bracket ends two of them, and each argument list closes the lists it
opens and no other ones. -/
theorem locate_forest (hname : constructRefusal? target.construct = none)
    (hne : target.brackets.opening ≠ target.brackets.closing)
    (hopen : target.brackets.opening ∉ target.construct)
    (hclose : target.brackets.closing ∉ target.construct)
    (hblank : isBlankChar target.brackets.closing = false) {t : Text} {calls : List Call}
    (h : target.locate t = .ok calls) :
    calls.Pairwise (fun a c => a.argsEnd < c.start ∨ a.contains c = true) ∧
      (calls.map Call.argsEnd).Nodup ∧
      ∀ call ∈ calls, ∃ args, call.args? t = some args ∧ target.brackets.Paired args := by
  have hqualified := isQualifiedName_of_constructRefusal? hname
  have hapart := pairwise_locate_apart hqualified hopen hclose hblank h
  refine ⟨hapart, ?_, fun call hcall => ?_⟩
  · unfold List.Nodup
    rw [List.pairwise_map]
    refine hapart.imp_of_mem fun {a c} _ hc hac => ?_
    rcases hac with hbehind | hinside
    · obtain ⟨args, hargs⟩ := exists_hasArgs_of_mem_locate h hc
      have hstart := start_lt_argsStart_of_mem_locate h hc
      have hend := hargs.argsEnd_eq
      omega
    · simp only [Call.contains, Bool.and_eq_true, decide_eq_true_eq] at hinside
      omega
  · obtain ⟨args, hargs⟩ := exists_hasArgs_of_mem_locate h hcall
    have hpaired := hargs.args?
    obtain ⟨_, _, -, -, -, hdepth⟩ := hargs
    exact ⟨args, hpaired, (Brackets.paired_iff hne).2 hdepth⟩

theorem locate_forest_sample :
    let target : Target := ⟨['P', '.', 'q'], ⟨'«', '»'⟩⟩
    let t := "P.q«P.q«», «P.q «)»»» P.q«»".toList
    let calls : List Call := [⟨0, 5, 27⟩, ⟨5, 10, 10⟩, ⟨16, 22, 23⟩, ⟨30, 35, 35⟩]
    constructRefusal? target.construct = none ∧
    target.brackets.opening ≠ target.brackets.closing ∧
    target.brackets.opening ∉ target.construct ∧ target.brackets.closing ∉ target.construct ∧
    isBlankChar target.brackets.closing = false ∧ target.locate t = .ok calls ∧
    calls.Pairwise (fun a c => a.argsEnd < c.start ∨ a.contains c = true) ∧
    (calls.map Call.argsEnd).Nodup ∧
    ∀ call ∈ calls, ∃ args, call.args? t = some args ∧ target.brackets.Paired args := by
  intro target t calls
  have hname : constructRefusal? target.construct = none := by decide +kernel
  have hne : target.brackets.opening ≠ target.brackets.closing := by decide
  have hopen : target.brackets.opening ∉ target.construct := by decide
  have hclose : target.brackets.closing ∉ target.construct := by decide
  have hblank : isBlankChar target.brackets.closing = false := by decide
  have h : target.locate t = .ok calls := by rfl
  exact ⟨hname, hne, hopen, hclose, hblank, h, locate_forest hname hne hopen hclose hblank h⟩

end Target

end ArgFill
