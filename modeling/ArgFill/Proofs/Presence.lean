import ArgFill.Proofs.Names
import ArgFill.Proofs.Occurrence

/-!
# Keys that stay present

A key stands between two commas or at an end of its argument list, so presence can be told for the
parts of a list that a comma separates, one by one (`hasKey_append_comma`). What is put in behind a
comma therefore takes no key away (`hasKey_insert`), and neither does more text at the end
(`hasKey_append`).
-/

namespace ArgFill

namespace Text

variable {key : Text}

/-! ## Colons -/

/-- Nothing behind a character that is neither a gap nor a colon can be the colon of a key. -/
theorem colonFollows_append_cons {s : Char} (hgap : isGap s = false) (hcolon : s ≠ ':') (x y : Text) :
    colonFollows (x ++ s :: y) = colonFollows x := by
  rw [colonFollows, colonFollows, dropWhile_append_cons hgap]
  cases x.dropWhile isGap with
  | nil => simpa using hcolon
  | cons c x => rfl

theorem colonFollows_append {x : Text} (h : colonFollows x = true) (y : Text) :
    colonFollows (x ++ y) = true := by
  induction x with
  | nil => cases h
  | cons c x ih =>
    rw [List.cons_append]
    by_cases hc : isGap c = true
    · rw [colonFollows, List.dropWhile_cons_of_pos hc] at h ⊢
      exact ih h
    · rw [colonFollows, List.dropWhile_cons_of_neg hc] at h ⊢
      exact h

/-! ## Keys -/

theorem hasKey_eq (hkey : key ≠ []) (args : Text) :
    args.hasKey key = (occurrencesFrom key 0 none 0 args).any Occurrence.isKey := by
  rw [hasKey, occurrences_eq hkey]

/-- Whether a key stands in a text does not hang on what precedes it, if a name may begin there. -/
theorem any_isKey_occurrencesFrom (hkey : key ≠ []) {b : Option Char} (hb : endsWord b = true)
    (o : Nat) (args : Text) :
    (occurrencesFrom key 0 b o args).any Occurrence.isKey = args.hasKey key := by
  have hview : ∀ l : List Occurrence, l.any Occurrence.isKey =
      (l.map Occurrence.view).any fun v => v.1 && v.2.colonFollows := by
    intro l
    rw [List.any_map]
    rfl
  have hnone : endsWord b = endsWord none := hb
  rw [hasKey_eq hkey, hview, hview, map_view_occurrencesFrom hnone key 0 o 0 args]

/-- A character that can neither belong to a key nor stand between it and its colon separates the
keys before it from those behind it. -/
theorem hasKey_append_cons {s : Char} (hs : s ∉ key) (hword : isWordChar s = false)
    (hgap : isGap s = false) (hcolon : s ≠ ':') (x y : Text) :
    (x ++ s :: y).hasKey key = (x.hasKey key || y.hasKey key) := by
  by_cases hkey : key = []
  · subst hkey
    rfl
  · have hb : endsWord (some s) = true := by simp [endsWord, hword]
    have hext : ((occurrencesFrom key 0 none 0 x).map (·.extend (s :: y))).any Occurrence.isKey =
        (occurrencesFrom key 0 none 0 x).any Occurrence.isKey := by
      rw [List.any_map]
      congr 1
      funext o
      simp only [Function.comp, Occurrence.isKey, Occurrence.extend,
        colonFollows_append_cons hgap hcolon]
    rw [hasKey_eq hkey, occurrencesFrom_append_cons hs hkey (Nat.zero_le _), List.any_append, hext,
      any_isKey_occurrencesFrom hkey hb, hasKey_eq hkey x]

theorem hasKey_append_comma (hkey : key.isName = true) (x y : Text) :
    (x ++ ',' :: y).hasKey key = (x.hasKey key || y.hasKey key) :=
  hasKey_append_cons (not_mem_of_isName hkey isNameChar_comma) (by decide) (by decide) (by decide) x y

theorem hasKey_append_lineFeed (hkey : key.isName = true) (x y : Text) :
    (x ++ '\n' :: y).hasKey key = (x.hasKey key || y.hasKey key) :=
  hasKey_append_cons (not_mem_of_isName hkey isNameChar_lineFeed) (by decide) (by decide) (by decide)
    x y

/-- No key begins in spaces and tabs, and one may begin behind them. -/
theorem hasKey_gaps_append (hkey : key.isName = true) {gaps : Text}
    (hgaps : ∀ c ∈ gaps, isGap c = true) (t : Text) : (gaps ++ t).hasKey key = t.hasKey key := by
  induction gaps with
  | nil => rfl
  | cons c gaps ih =>
    have hc := hgaps c List.mem_cons_self
    have hne := ne_nil_of_isName hkey
    have hnot := not_mem_of_isName hkey (isNameChar_eq_false_of_isGap hc)
    have hb : endsWord (some c) = true := by simp [endsWord, isWordChar_eq_false_of_isGap hc]
    rw [← ih fun d hd => hgaps d (List.mem_cons_of_mem c hd), hasKey_eq hne,
      ← List.nil_append (c :: gaps ++ t), List.cons_append,
      occurrencesFrom_append_cons hnot hne (Nat.zero_le _), occurrencesFrom_nil, List.map_nil,
      List.nil_append, any_isKey_occurrencesFrom hne hb]

theorem hasKey_append {x : Text} (h : x.hasKey key = true) (y : Text) :
    (x ++ y).hasKey key = true := by
  by_cases hkey : key = []
  · subst hkey
    exact h
  · obtain ⟨more, hmore⟩ := occurrencesFrom_append key 0 none 0 x y
    rw [hasKey_eq hkey, List.any_eq_true] at h
    obtain ⟨o, ho, hisKey⟩ := h
    rw [Occurrence.isKey, Bool.and_eq_true] at hisKey
    rw [hasKey_eq hkey, hmore, List.any_append, Bool.or_eq_true, List.any_eq_true]
    refine Or.inl ⟨o.extend y, List.mem_map_of_mem ho, ?_⟩
    rw [Occurrence.isKey, Bool.and_eq_true]
    exact ⟨hisKey.1, colonFollows_append hisKey.2 y⟩

theorem hasKey_insert (hkey : key.isName = true) {x y : Text}
    (h : (x ++ ',' :: y).hasKey key = true) (added : Text) :
    (x ++ ',' :: (added ++ ',' :: y)).hasKey key = true := by
  rw [hasKey_append_comma hkey, Bool.or_eq_true] at h
  rw [hasKey_append_comma hkey, hasKey_append_comma hkey, Bool.or_eq_true, Bool.or_eq_true]
  rcases h with h | h
  · exact Or.inl h
  · exact Or.inr (Or.inr h)

theorem hasKey_eq_false_of_count {args : Text} {c : Char}
    (h : List.count c args < List.count c key) : args.hasKey key = false := by
  have hkey : key ≠ [] := by
    rintro rfl
    exact absurd h (Nat.not_lt_zero _)
  rw [hasKey_eq hkey, List.any_eq_false]
  intro o ho
  obtain ⟨pre, rfl, -, -⟩ := mem_occurrencesFrom ho
  simp only [List.count_append] at h
  omega

theorem hasKey_self (hkey : key ≠ []) (t : Text) : (key ++ ':' :: t).hasKey key = true := by
  obtain ⟨c, k, rfl⟩ := List.exists_cons_of_ne_nil hkey
  have hstart : startsWith (c :: (k ++ ':' :: t)) (c :: k) = true :=
    startsWith_iff.2 ⟨':' :: t, rfl⟩
  rw [hasKey_eq hkey, List.cons_append, occurrencesFrom_found hstart, List.any_cons,
    Bool.or_eq_true]
  left
  rw [Occurrence.isKey, ← List.cons_append, List.drop_left]
  rfl

end Text

end ArgFill
