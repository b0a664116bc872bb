import ArgFill.Proofs.Run

/-!
# When filling ends

The turns at a call come to an end if no literal closes a bracket that it did not open. Then an
argument that was put in stays in the list of its call (`Call.Opens.exists_insert`), so the open
rules get fewer with each turn (`openRules_lt_of_insert`). `Open.isOwn_of_apply` says how many turns
are enough.
-/

namespace ArgFill

/-- A fault that a run comes to by itself: its turns did not run out, and no place was missed. -/
def Fault.IsOwn (fault : Fault) : Prop := fault ≠ .unsettled ∧ fault ≠ .badOffset

/-- Filling a text ends: with enough turns for each call, no call runs out of them. -/
def Filler.Ends (filler : Filler) (t : Text) : Prop :=
  ∃ enough, ∀ budget, enough ≤ budget → filler.apply budget t ≠ .error .unsettled

/-- An opening bracket stands before the arguments of a call. -/
def Call.Stands (b : Brackets) (t : Text) (call : Call) : Prop :=
  ∃ front rest, t = front ++ b.opening :: rest ∧
    call.argsStart = Text.size front + b.opening.utf8Size

theorem Call.Stands.of_le {b : Brackets} {call other : Call} {front x rest : Text}
    (h : other.Stands b ((front ++ b.opening :: x) ++ rest))
    (hstart : call.argsStart = front.size + b.opening.utf8Size)
    (hle : other.argsStart ≤ call.argsStart) (rest' : Text) :
    other.Stands b ((front ++ b.opening :: x) ++ rest') := by
  rw [List.append_assoc, List.cons_append] at h ⊢
  obtain ⟨front', behind, ht, hstart'⟩ := h
  rcases List.append_eq_append_iff.1 ht with ⟨mid, rfl, hmid⟩ | ⟨mid, rfl, hmid⟩
  · cases mid with
    | nil => exact ⟨front, x ++ rest', by simp, by simpa using hstart'⟩
    | cons c mid =>
      have := c.utf8Size_pos
      simp only [Text.size_append, Text.size_cons] at hstart'
      omega
  · cases mid with
    | nil => exact ⟨front', x ++ rest', by simp, by simpa using hstart'⟩
    | cons c mid =>
      obtain ⟨rfl, -⟩ := List.cons.inj hmid
      exact ⟨front', mid ++ b.opening :: (x ++ rest'), by simp, hstart'⟩

/-! ## Literals that leave brackets open -/

/-- What is put in at the top of a list stays in the list that opens there then, with all that was in
the list before. -/
theorem Call.Opens.exists_insert {b : Brackets} (hb : b.StandOut) {call : Call}
    {front x y back added grown : Text} (hdepth : b.depth? 0 (x ++ ',' :: y) = some 0)
    (hadded : (b.depth? 0 added).isSome) (hstart : call.argsStart = front.size + b.opening.utf8Size)
    (h : call.Opens b ((front ++ b.opening :: x) ++ ',' :: (added ++ ',' :: (y ++ b.closing :: back)))
      grown) :
    ∃ more, grown = x ++ ',' :: (added ++ ',' :: (y ++ more)) := by
  obtain ⟨k, hk⟩ := Option.isSome_iff_exists.1 hadded
  obtain ⟨front', back', ht, hstart', hgrown⟩ := h
  -- the list goes on at least to where it ended before
  have hcomma : b.depth? 0 (',' :: added) = some k := by
    rwa [Brackets.depth?_cons_of_ne (standsOut_iff.1 hb.opening).2.2.2.symm
      (standsOut_iff.1 hb.closing).2.2.2.symm]
  have hopen : b.depth? 0 (x ++ ',' :: (added ++ ',' :: y)) = some (0 + k) :=
    Brackets.depth?_insert_of_eq_some hcomma hdepth
  rw [List.append_assoc, List.cons_append] at ht
  obtain ⟨-, hrest⟩ := Text.append_inj_of_size_eq ht (by omega)
  have hlist : (x ++ ',' :: (added ++ ',' :: y)) ++ b.closing :: back =
      grown ++ b.closing :: back' := by
    simpa using (List.cons.inj hrest).2
  rcases List.append_eq_append_iff.1 hlist with ⟨more, rfl, -⟩ | ⟨more, hmore, hends⟩
  · exact ⟨more, by simp⟩
  · cases more with
    | nil => exact ⟨[], by simpa using hmore.symm⟩
    | cons c more =>
      obtain rfl : b.closing = c := (List.cons.inj hends).1
      rw [hmore, Brackets.depth?_append, hgrown, Option.bind_some,
        Brackets.depth?_closing_zero hb.differ] at hopen
      cases hopen

/-! ## Turns come to an end -/

namespace Filler

variable {filler : Filler}

/-- What is needed for the turns to end. -/
structure Open (filler : Filler) : Prop where
  accepted : filler.refusal? = none
  brackets : filler.target.brackets.StandOut
  literals : ∀ rule ∈ filler.rules, (filler.target.brackets.depth? 0 rule.literal).isSome

theorem isOwn_unclosed (construct : Text) (offset : Nat) :
    (Fault.unclosed construct offset).IsOwn :=
  ⟨nofun, nofun⟩

theorem isOwn_refused (why : Refusal) : (Fault.refused why).IsOwn := ⟨nofun, nofun⟩

/-- An argument that was put in closes a rule, and no rule is opened again. -/
theorem openRules_lt_of_insert (h : filler.Open) {call : Call} {out : List Rule} {rule : Rule}
    {front x y back indent grown : Text} (hnext : filler.next? (x ++ ',' :: y) out = some rule)
    (hdepth : filler.target.brackets.depth? 0 (x ++ ',' :: y) = some 0)
    (hstart : call.argsStart = front.size + filler.target.brackets.opening.utf8Size)
    (hindent : ∀ c ∈ indent, isGap c = true)
    (hopens : call.Opens filler.target.brackets ((front ++ filler.target.brackets.opening :: x) ++
      ',' :: (rule.argument indent ++ ',' :: (y ++ filler.target.brackets.closing :: back))) grown)
    (hkey : grown.hasKey rule.key = true) :
    filler.openRules grown out < filler.openRules (x ++ ',' :: y) out := by
  have hrule := (of_next?_eq_some hnext).1
  have hadded := h.literals rule hrule
  rw [← depth?_argument h.brackets (isName_of_refusal? h.accepted hrule).1 hindent] at hadded
  obtain ⟨more, rfl⟩ := hopens.exists_insert h.brackets hdepth hadded hstart
  refine openRules_lt hnext (fun r hr hr' => ?_) (fun _ hr => hr) (Or.inl hkey)
  have hkept := Text.hasKey_insert (isName_of_refusal? h.accepted hr).1 hr' (rule.argument indent)
  simpa using Text.hasKey_append hkept more

/-- The turns at a call end. Each turn but the last leaves fewer rules open, and the calls before
it keep standing. -/
theorem fillCall_ends (h : filler.Open) {call : Call} {left : Nat} {out : List Rule} {p : Progress}
    (hstands : call.Stands filler.target.brackets p.text) (hpos : 0 < left)
    (hleft : ∀ args, call.Opens filler.target.brackets p.text args →
      filler.openRules args out < left) :
    (∀ fault, filler.fillCall call left out p = .error fault → fault.IsOwn) ∧
      ∀ last, filler.fillCall call left out p = .ok last → ∀ other : Call,
        other.argsStart ≤ call.argsStart → other.Stands filler.target.brackets p.text →
          other.Stands filler.target.brackets last.text := by
  induction left generalizing out p with
  | zero => omega
  | succ left ih =>
    obtain ⟨front, rest, htext, hstart⟩ := hstands
    rw [fillCall]
    rcases opens_or_unclosed h.brackets.oneByte h.brackets.differ hstart rest with
      ⟨args, hopens⟩ | hunclosed
    · rw [← htext] at hopens
      have houtcome : Outcome filler call out p args (filler.turn call out p) :=
        turn_outcome h.accepted h.brackets hopens
      have hlt := hleft args hopens
      generalize filler.turn call out p = turn at houtcome
      cases houtcome with
      | settled =>
        refine ⟨fun fault hfault => (by cases hfault), fun last hlast other _ hother => ?_⟩
        obtain rfl := Except.ok.inj hlast
        exact hother
      | @leftOut rule hnext hslot =>
        have hfewer : filler.openRules args (rule :: out) < filler.openRules args out :=
          openRules_lt hnext (fun _ _ hkey => hkey) (fun _ hr => List.mem_cons_of_mem _ hr)
            (Or.inr List.mem_cons_self)
        refine ih (p := p.leave call rule) ⟨front, rest, htext, hstart⟩ (by omega)
          fun args' hopens' => ?_
        obtain rfl := Call.Opens.unique h.brackets.differ hopens' hopens
        omega
      | @added rule front' x y back indent grown hnext hargs hslot htop hsplit hstart' hindent hgrown
          hkey =>
        subst hargs
        have hdepth := hopens.depth?_eq
        have hfewer := openRules_lt_of_insert h hnext hdepth hstart' hindent hgrown hkey
        have hnow : call.Stands filler.target.brackets p.text := ⟨front, rest, htext, hstart⟩
        rw [hsplit] at hnow
        obtain ⟨hfault, hlast⟩ := @ih out (p.put call rule _ _)
          (hnow.of_le hstart' (Nat.le_refl _) _) (by omega) (by
            intro args' hopens'
            obtain rfl := Call.Opens.unique h.brackets.differ hopens' hgrown
            omega)
        refine ⟨hfault, fun last hl other hle hother => hlast last hl other hle ?_⟩
        rw [hsplit] at hother
        exact hother.of_le hstart' hle _
      | unclosed =>
        refine ⟨fun fault hfault => ?_, fun last hlast => (by cases hlast)⟩
        obtain rfl := Except.error.inj hfault
        exact isOwn_unclosed _ _
      | keyLost rule =>
        refine ⟨fun fault hfault => ?_, fun last hlast => (by cases hlast)⟩
        obtain rfl := Except.error.inj hfault
        exact isOwn_refused _
    · rw [← htext] at hunclosed
      rw [turn, hunclosed]
      refine ⟨fun fault hfault => ?_, fun last hlast => (by cases hlast)⟩
      obtain rfl := Except.error.inj hfault
      exact isOwn_unclosed _ _

theorem fillCalls_ends (h : filler.Open) {budget : Nat} (hbudget : filler.rules.length < budget)
    {calls : List Call} (horder : calls.Pairwise fun a c => c.argsStart < a.argsStart) {p : Progress}
    (hstands : ∀ call ∈ calls, call.Stands filler.target.brackets p.text) {fault : Fault}
    (hfault : filler.fillCalls budget calls p = .error fault) : fault.IsOwn := by
  induction calls generalizing p with
  | nil => cases hfault
  | cons call calls ih =>
    obtain ⟨hbefore, hrest⟩ := List.pairwise_cons.1 horder
    have hleft : ∀ args, call.Opens filler.target.brackets p.text args →
        filler.openRules args [] < budget :=
      fun args _ => Nat.lt_of_le_of_lt List.countP_le_length hbudget
    obtain ⟨hcall, hkeeps⟩ := fillCall_ends h (hstands call List.mem_cons_self)
      (Nat.zero_lt_of_lt hbudget) hleft
    rw [fillCalls, List.foldlM_cons] at hfault
    cases hnext : filler.fillCall call budget [] p with
    | error fault' =>
      rw [hnext] at hfault
      obtain rfl := Except.error.inj hfault
      exact hcall _ hnext
    | ok next =>
      rw [hnext] at hfault
      refine ih hrest (fun c hc => ?_) hfault
      exact hkeeps next hnext c (Nat.le_of_lt (hbefore c hc))
        (hstands c (List.mem_cons_of_mem _ hc))

/-- One turn more than there are rules is enough for each call. -/
theorem Open.isOwn_of_apply (h : filler.Open) {budget : Nat} (hbudget : filler.rules.length < budget)
    {t : Text} {fault : Fault} (hfault : filler.apply budget t = .error fault) : fault.IsOwn := by
  cases hlocate : filler.target.locate t with
  | error fault' =>
    rw [apply_of_locate_error hlocate] at hfault
    obtain rfl := Except.error.inj hfault
    obtain ⟨offset, rfl⟩ := Target.eq_unclosed_of_locate hlocate
    exact isOwn_unclosed _ _
  | ok calls =>
    by_cases hrules : filler.rules = []
    · rw [apply_of_rules_nil hlocate hrules] at hfault
      cases hfault
    · rw [apply_of_locate hlocate hrules] at hfault
      cases hfill : filler.fillCalls budget calls.reverse ⟨t, [], []⟩ with
      | ok p =>
        rw [hfill] at hfault
        cases hfault
      | error fault' =>
        rw [hfill] at hfault
        obtain rfl := Except.error.inj hfault
        have hname := isQualifiedName_of_refusal? h.accepted
        refine fillCalls_ends h hbudget (Target.pairwise_reverse_locate hname hlocate)
          (fun call hcall => ?_) hfill
        obtain ⟨args, front, back, ht, hstart, -, -⟩ :=
          Target.exists_hasArgs_of_mem_locate hlocate (List.mem_reverse.1 hcall)
        exact ⟨front, _, ht, hstart⟩

/-- Filling ends where no literal closes a bracket that it did not open. -/
theorem Open.ends (h : filler.Open) (t : Text) : filler.Ends t :=
  ⟨filler.rules.length + 1, fun _ hbudget hfault => (h.isOwn_of_apply hbudget hfault).1 rfl⟩

end Filler

end ArgFill
