import ArgFill.Proofs.Invariant

/-!
# Plain literals

A plain character means nothing in an argument list. What a rule with a plain literal adds, its key
and the line end included, is read without a change wherever reading is steady, and so it is behind
every comma (`Reading.steady_behind_comma`), be it in a nested list or in quotes.

* `passes_of_mem_argument` : nothing in what a rule adds changes how a list is read;
* `Plain.inert` : plain literals are inert for round brackets.
-/

namespace ArgFill

/-- A character that means nothing in an argument list: no quote, no backslash, no bracket, no colon
and no comma. -/
def isPlain (c : Char) : Bool := Reading.passes c && c != '\\' && c != ':' && c != ','

theorem isPlain_iff {c : Char} : isPlain c = true ↔
    Reading.passes c = true ∧ c ≠ '\\' ∧ c ≠ ':' ∧ c ≠ ',' := by
  simp [isPlain, and_assoc]

/-! ## Steady reading -/

namespace Reading

def quote? : Reading → Option Char
  | ⟨.outside, _⟩ => none
  | ⟨.inside quote, _⟩ => some quote
  | ⟨.escaped quote, _⟩ => some quote

/-- What changes nothing outside quotes changes nothing here. -/
def Steady (r : Reading) : Prop := ∀ c, passes c = true → c ≠ '\\' → r.next c = r

theorem Steady.through {r : Reading} (h : r.Steady) {t : Text}
    (ht : ∀ c ∈ t, passes c = true ∧ c ≠ '\\') : r.through t = r := by
  induction t with
  | nil => rfl
  | cons c t ih =>
    have hc := ht c List.mem_cons_self
    rw [through_cons, h c hc.1 hc.2]
    exact ih fun d hd => ht d (List.mem_cons_of_mem c hd)

theorem steady_outside (depth : Nat) : Steady ⟨.outside, depth⟩ :=
  fun _ hc _ => next_of_passes hc depth

theorem steady_inside {quote : Char} (hquote : Quoting.isQuote quote = true) (depth : Nat) :
    Steady ⟨.inside quote, depth⟩ := by
  intro c hc hslash
  have hne : c ≠ quote := by
    rintro rfl
    simp [passes, hquote] at hc
  simp [next, Quoting.next, hslash, hne]

theorem isQuote_of_mem_next {r : Reading} (h : ∀ q ∈ r.quote?, Quoting.isQuote q = true)
    (c : Char) : ∀ q ∈ (r.next c).quote?, Quoting.isQuote q = true := by
  intro q hq
  obtain ⟨quoting, depth⟩ := r
  cases quoting with
  | outside =>
    rw [next] at hq
    split at hq
    · next hc =>
      obtain rfl := Option.some.inj hq
      exact hc
    · repeat' split at hq
      all_goals cases hq
  | inside quote =>
    have hquote := h quote rfl
    rw [next, Quoting.next] at hq
    · repeat' split at hq
      all_goals cases hq
      all_goals exact hquote
    · intro hnot
      cases hnot
  | escaped quote =>
    obtain rfl := Option.some.inj hq
    exact h quote rfl

theorem isQuote_of_mem_through {r : Reading} (h : ∀ q ∈ r.quote?, Quoting.isQuote q = true)
    (t : Text) : ∀ q ∈ (r.through t).quote?, Quoting.isQuote q = true := by
  induction t generalizing r with
  | nil => exact h
  | cons c t ih => exact ih (isQuote_of_mem_next h c)

theorem next_comma_cases (x : Text) :
    (∃ depth, top.through x = ⟨.outside, depth⟩ ∧
      (top.through x).next ',' = ⟨.outside, depth⟩) ∨
    ∃ quote depth, Quoting.isQuote quote = true ∧
      (top.through x).next ',' = ⟨.inside quote, depth⟩ := by
  have hquote := isQuote_of_mem_through (r := top) (fun q hq => nomatch hq) x
  generalize top.through x = r at hquote ⊢
  obtain ⟨quoting, depth⟩ := r
  cases quoting with
  | outside => exact Or.inl ⟨depth, rfl, rfl⟩
  | inside quote =>
    have hne : ',' ≠ quote := by
      rintro rfl
      exact absurd (hquote _ rfl) (by decide)
    exact Or.inr ⟨quote, depth, hquote _ rfl, by simp [next, Quoting.next, hne]⟩
  | escaped quote => exact Or.inr ⟨quote, depth, hquote _ rfl, rfl⟩

/-- Behind a comma reading is steady. It may stand in quotes there, but not behind a
backslash. -/
theorem steady_behind_comma (x : Text) : ((top.through x).next ',').Steady := by
  rcases next_comma_cases x with ⟨depth, -, hnext⟩ | ⟨quote, depth, hquote, hnext⟩
  · rw [hnext]
    exact steady_outside depth
  · rw [hnext]
    exact steady_inside hquote depth

theorem eq_top_of_next_comma {x : Text} (h : (top.through x).next ',' = .top) :
    top.through x = .top := by
  rcases next_comma_cases x with ⟨depth, hx, hnext⟩ | ⟨quote, depth, -, hnext⟩
  · rw [hx, ← hnext, h]
  · rw [h] at hnext
    cases hnext

end Reading

/-! ## What a rule adds -/

section

variable {rule : Rule} {indent : Text} (hkey : rule.key.isName = true)
  (hplain : ∀ c ∈ rule.literal, isPlain c = true) (hindent : ∀ c ∈ indent, isGap c = true)

include hkey hplain hindent

theorem passes_of_mem_argument {c : Char} (hc : c ∈ rule.argument indent) :
    Reading.passes c = true ∧ c ≠ '\\' ∧ c ≠ ',' := by
  have hname : ∀ d, isNameChar d = false → d ∉ rule.key := fun d => Text.not_mem_of_isName hkey
  simp only [Rule.argument, List.mem_cons, List.mem_append] at hc
  rcases hc with rfl | hc | hc | rfl | rfl | hc
  · decide
  · refine ⟨Reading.passes_of_isGap (hindent c hc), ?_, ?_⟩ <;> rintro rfl <;>
      exact absurd (hindent _ hc) (by decide)
  · refine ⟨Reading.passes_of_isNameChar (Text.isNameChar_of_mem hkey hc), ?_, ?_⟩ <;> rintro rfl
    · exact hname _ (by decide +kernel) hc
    · exact hname _ isNameChar_comma hc
  · decide
  · decide
  · obtain ⟨hpasses, hslash, -, hcomma⟩ := isPlain_iff.1 (hplain c hc)
    exact ⟨hpasses, hslash, hcomma⟩

theorem through_argument : Reading.top.through (rule.argument indent) = .top :=
  (through_argument_eq hkey hindent).trans
    (Reading.through_of_forall_passes (fun c hc => (isPlain_iff.1 (hplain c hc)).1) 0)

end

/-! ## Fillers with plain literals -/

theorem Target.locate_of_not_mem {target : Target} (hname : target.construct ≠ []) {t : Text}
    (h : target.brackets.opening ∉ t) : target.locate t = .ok [] := by
  rw [locate_eq_ok_nil_iff hname]
  intro o ho
  obtain ⟨pre, rfl, -, -⟩ := Text.mem_occurrencesFrom ho
  exact opensAt_eq_false_of_not_mem fun hmem => h (List.mem_append_right _ hmem)

namespace Filler

structure Plain (filler : Filler) : Prop where
  accepted : filler.refusal? = none
  brackets : filler.target.brackets = .round
  literals : ∀ rule ∈ filler.rules, ∀ c ∈ rule.literal, isPlain c = true

theorem Plain.inert {filler : Filler} (h : filler.Plain) : filler.Inert := by
  refine ⟨h.accepted, h.brackets ▸ Brackets.standOut_round, fun rule hrule => ?_⟩
  have hplain : ∀ c ∈ rule.literal,
      c ≠ filler.target.brackets.opening ∧ c ≠ filler.target.brackets.closing := by
    intro c hc
    have hpasses := (isPlain_iff.1 (h.literals rule hrule c hc)).1
    rw [h.brackets]
    constructor <;> rintro rfl <;> revert hpasses <;> decide
  exact ⟨Brackets.depth?_of_forall_ne hplain 0,
    Target.locate_of_not_mem
      (Text.ne_nil_of_isQualifiedName (isQualifiedName_of_refusal? h.accepted))
      fun hmem => (hplain _ hmem).1 rfl⟩

theorem Plain.apart_or_contains {filler : Filler} (h : filler.Plain) {t : Text} {calls : List Call}
    (hlocate : filler.target.locate t = .ok calls) {a c : Call} (ha : a ∈ calls) (hc : c ∈ calls)
    (hlt : a.start < c.start) : a.argsEnd < c.start ∨ a.contains c = true := by
  have hname := isQualifiedName_of_refusal? h.accepted
  have horder := Target.pairwise_locate hname hlocate
  have hapart := Target.pairwise_locate_apart hname
    (by rw [h.brackets]; exact Text.not_mem_of_isQualifiedName hname (by decide +kernel) (by decide))
    (by rw [h.brackets]; exact Text.not_mem_of_isQualifiedName hname (by decide +kernel) (by decide))
    (by rw [h.brackets]; decide) hlocate
  rw [List.pairwise_iff_getElem] at horder hapart
  obtain ⟨i, hi, rfl⟩ := List.getElem_of_mem ha
  obtain ⟨j, hj, rfl⟩ := List.getElem_of_mem hc
  rcases Nat.lt_trichotomy i j with hij | rfl | hij
  · exact hapart i j hi hj hij
  · omega
  · have := (horder j i hj hi hij).1
    omega

theorem plain_sample : sample.Plain := by
  refine ⟨inert_sample.accepted, rfl, fun rule hrule c hc => ?_⟩
  simp only [sample, List.mem_cons, List.not_mem_nil, or_false] at hrule
  rcases hrule with rfl | rfl <;> obtain rfl := List.mem_singleton.1 hc <;> decide

end Filler

end ArgFill
