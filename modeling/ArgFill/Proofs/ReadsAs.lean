import ArgFill.Proofs.Insertion

/-!
# The keys in what a rule adds

What a rule adds ends with its literal. If there is no colon in the literal, the only keys in it are
those that the rule's own key is read as (`hasKey_argument_eq`): the key itself, and perhaps a
shorter one that it ends with. A key of word characters is read as no other one
(`Text.readsAs_iff_of_isWordChar`).
-/

namespace ArgFill

namespace Text

/-- Is a name that a colon follows read as a key? The key itself is, and so may be a longer name that
ends with it. -/
def readsAs (name key : Text) : Bool := (name ++ [':']).hasKey key

variable {name key : Text}

theorem readsAs_self (hkey : key ≠ []) : key.readsAs key = true :=
  hasKey_self hkey []

theorem hasKey_eq_false_of_colon_notMem {t : Text} (h : ':' ∉ t) (key : Text) :
    t.hasKey key = false := by
  by_cases hkey : key = []
  · subst hkey
    rfl
  · rw [hasKey_eq hkey, List.any_eq_false]
    intro o ho hisKey
    obtain ⟨pre, ht, -, -⟩ := mem_occurrencesFrom ho
    rw [Occurrence.isKey, Bool.and_eq_true, colonFollows, beq_iff_eq] at hisKey
    refine h ?_
    rw [ht]
    exact List.mem_append_right _
      ((List.dropWhile_suffix isGap).subset (List.mem_of_head? hisKey.2))

theorem hasKey_append_colon (hkey : key.isName = true) {rest : Text} (hrest : ':' ∉ rest)
    (x : Text) : (x ++ ':' :: rest).hasKey key = (x ++ [':']).hasKey key := by
  have hne := ne_nil_of_isName hkey
  have hnot := not_mem_of_isName hkey isNameChar_colon
  have hgap : isGap ':' = false := by decide
  have hb : endsWord (some ':') = true := by decide
  have hfront : ∀ y : Text,
      ((occurrencesFrom key 0 none 0 x).map (·.extend (':' :: y))).any Occurrence.isKey =
        (occurrencesFrom key 0 none 0 x).any fun o =>
          endsWord o.before && ((o.after.dropWhile isGap).head?.or (some ':') == some ':') := by
    intro y
    rw [List.any_map]
    congr 1
    funext o
    simp only [Function.comp, Occurrence.isKey, Occurrence.extend, colonFollows,
      dropWhile_append_cons hgap, List.head?_append, List.head?_cons]
  rw [hasKey_eq hne, hasKey_eq hne, occurrencesFrom_append_cons hnot hne (Nat.zero_le _),
    occurrencesFrom_append_cons hnot hne (Nat.zero_le _), List.any_append, List.any_append, hfront,
    hfront, any_isKey_occurrencesFrom hne hb, any_isKey_occurrencesFrom hne hb,
    hasKey_eq_false_of_colon_notMem hrest, hasKey_eq_false_of_colon_notMem (by simp)]

theorem eq_nil_of_colonFollows {x y : Text} (hword : ∀ c ∈ x, isWordChar c = true)
    (h : colonFollows (x ++ y) = true) : x = [] := by
  cases x with
  | nil => rfl
  | cons c x =>
    have hc := hword c List.mem_cons_self
    have hgap : ¬ isGap c = true := by
      intro hgap
      rw [isWordChar_eq_false_of_isGap hgap] at hc
      cases hc
    rw [colonFollows, List.cons_append, List.dropWhile_cons_of_neg hgap] at h
    obtain rfl : c = ':' := by simpa using h
    exact absurd hc (by decide)

theorem eq_nil_of_endsWord {x : Text} (hword : ∀ c ∈ x, isWordChar c = true)
    (h : endsWord x.getLast? = true) : x = [] := by
  by_contra hx
  rw [List.getLast?_eq_some_getLast hx, endsWord] at h
  simp [hword _ (List.getLast_mem hx)] at h

/-- A name of word characters is read as no other key. -/
theorem readsAs_iff_of_isWordChar (hkey : key ≠ []) (hword : ∀ c ∈ name, isWordChar c = true) :
    name.readsAs key = true ↔ name = key := by
  constructor
  · intro h
    rw [readsAs, hasKey_eq hkey, List.any_eq_true] at h
    obtain ⟨o, ho, hisKey⟩ := h
    obtain ⟨pre, ht, -, hbefore⟩ := mem_occurrencesFrom ho
    rw [Occurrence.isKey, Bool.and_eq_true, hbefore, Option.or_none] at hisKey
    obtain ⟨hbegin, hcolon⟩ := hisKey
    rcases List.eq_nil_or_concat o.after with hnil | ⟨late, d, hafter⟩
    · rw [hnil] at hcolon
      cases hcolon
    · rw [hafter, List.concat_eq_append] at hcolon
      rw [hafter, List.concat_eq_append, ← List.append_assoc] at ht
      obtain ⟨rfl, -⟩ := List.append_inj' ht rfl
      obtain rfl := eq_nil_of_colonFollows
        (fun c hc => hword c (List.mem_append_right _ hc)) hcolon
      obtain rfl := eq_nil_of_endsWord
        (fun c hc => hword c (List.mem_append_left _ (List.mem_append_left _ hc))) hbegin
      simp
  · rintro rfl
    exact readsAs_self hkey

end Text

/-- What a rule adds has the keys that its own key is read as, if there is no colon in its
literal. -/
theorem hasKey_argument_eq {rule : Rule} {indent key : Text} (hkey : key.isName = true)
    (hcolon : ':' ∉ rule.literal) (hindent : ∀ c ∈ indent, isGap c = true) :
    (rule.argument indent).hasKey key = rule.key.readsAs key := by
  have hvalue : ':' ∉ ' ' :: rule.literal := by
    rw [List.mem_cons, not_or]
    exact ⟨by decide, hcolon⟩
  have hline := Text.hasKey_append_lineFeed hkey []
    (indent ++ (rule.key ++ ':' :: ' ' :: rule.literal))
  rw [Text.hasKey_gaps_append hkey hindent, Text.hasKey_append_colon hkey hvalue,
    Text.hasKey_eq_false_of_colon_notMem List.not_mem_nil, Bool.false_or] at hline
  exact hline

section

variable {rule : Rule} {indent key : Text} (hkey : key.isName = true)
  (hword : ∀ c ∈ rule.key, isWordChar c = true) (hne : rule.key ≠ key)
  (hcolon : ':' ∉ rule.literal) (hindent : ∀ c ∈ indent, isGap c = true)

include hkey hword hne hcolon hindent

theorem hasKey_argument_of_ne : (rule.argument indent).hasKey key = false := by
  rw [hasKey_argument_eq hkey hcolon hindent, Bool.eq_false_iff]
  exact fun hreads =>
    hne ((Text.readsAs_iff_of_isWordChar (Text.ne_nil_of_isName hkey) hword).1 hreads)

theorem hasKey_insert_argument (x y : Text) :
    (x ++ ',' :: (rule.argument indent ++ ',' :: y)).hasKey key = (x ++ ',' :: y).hasKey key := by
  rw [Text.hasKey_append_comma hkey, Text.hasKey_append_comma hkey, Text.hasKey_append_comma hkey,
    hasKey_argument_of_ne hkey hword hne hcolon hindent, Bool.false_or]

end

end ArgFill
