import ArgFill.Rule

/-!
# Characters of names

What acceptance of a construct or of a rule says about its characters. Names hold no white space
(`isBlankChar_eq_false_of_isNameChar`), no comma, no colon and no line end, so that these separate
names in a text. The word characters are the ASCII ones among the characters of names
(`isWordChar_iff`).
-/

namespace ArgFill

theorem blankRanges_disjoint_alphanumericRanges :
    ∀ r ∈ blankRanges, ∀ s ∈ alphanumericRanges, r.2 < s.1 ∨ s.2 < r.1 := by decide +kernel

theorem isBlankChar_eq_false_of_isNameChar {c : Char} (h : isNameChar c = true) :
    isBlankChar c = false := by
  rw [isNameChar, Bool.or_eq_true, Bool.or_eq_true, beq_iff_eq, beq_iff_eq] at h
  rcases h with (h | rfl) | rfl
  · rw [isAlphanumeric, List.any_eq_true] at h
    obtain ⟨s, hs, hc⟩ := h
    rw [isBlankChar, List.any_eq_false]
    intro r hr
    have := blankRanges_disjoint_alphanumericRanges r hr s hs
    simp only [Bool.and_eq_true, decide_eq_true_eq] at hc ⊢
    omega
  · decide
  · decide

theorem isNameChar_comma : isNameChar ',' = false := by decide +kernel

theorem isNameChar_colon : isNameChar ':' = false := by decide +kernel

theorem isNameChar_lineFeed : isNameChar '\n' = false := by decide +kernel

theorem isNameChar_semicolon : isNameChar ';' = false := by decide +kernel

theorem isNameChar_eq_false_of_isGap {c : Char} (h : isGap c = true) : isNameChar c = false := by
  rw [isGap, Bool.or_eq_true, beq_iff_eq, beq_iff_eq] at h
  rcases h with rfl | rfl <;> decide +kernel

theorem isWordChar_eq_false_of_isGap {c : Char} (h : isGap c = true) : isWordChar c = false := by
  rw [isGap, Bool.or_eq_true, beq_iff_eq, beq_iff_eq] at h
  rcases h with rfl | rfl <;> decide

theorem isAlphanum_iff {c : Char} : c.isAlphanum = true ↔
    (65 ≤ c.toNat ∧ c.toNat ≤ 90 ∨ 97 ≤ c.toNat ∧ c.toNat ≤ 122) ∨ 48 ≤ c.toNat ∧ c.toNat ≤ 57 := by
  show ((decide ('A'.val ≤ c.val ∧ c.val ≤ 'Z'.val) ||
    decide ('a'.val ≤ c.val) && decide (c.val ≤ 'z'.val)) ||
      decide ('0'.val ≤ c.val) && decide (c.val ≤ '9'.val)) = true ↔ _
  simp only [Bool.or_eq_true, Bool.and_eq_true, decide_eq_true_eq, UInt32.le_iff_toNat_le]
  exact Iff.rfl

/-- All but the first three ranges of letters and numbers are beyond ASCII. -/
theorem le_of_mem_drop_alphanumericRanges :
    ∀ r ∈ alphanumericRanges.drop 3, 128 ≤ r.1 := by decide +kernel

theorem isAlphanumeric_eq_isAlphanum {c : Char} (h : c.toNat < 128) :
    isAlphanumeric c = c.isAlphanum := by
  have hsplit : alphanumericRanges =
      [(0x30, 0x39), (0x41, 0x5A), (0x61, 0x7A)] ++ alphanumericRanges.drop 3 := rfl
  have hbeyond : ((alphanumericRanges.drop 3).any fun r => r.1 ≤ c.toNat && c.toNat ≤ r.2) =
      false := by
    rw [List.any_eq_false]
    intro r hr
    have := le_of_mem_drop_alphanumericRanges r hr
    simp only [Bool.and_eq_true, decide_eq_true_eq]
    omega
  rw [isAlphanumeric, hsplit, List.any_append, hbeyond, Bool.or_false, Bool.eq_iff_iff,
    isAlphanum_iff]
  simp only [List.any_cons, List.any_nil, Bool.or_false, Bool.or_eq_true, Bool.and_eq_true,
    decide_eq_true_eq]
  omega

theorem toNat_lt_of_isWordChar {c : Char} (h : isWordChar c = true) : c.toNat < 128 := by
  rw [isWordChar, Bool.or_eq_true, Bool.or_eq_true, beq_iff_eq, beq_iff_eq] at h
  rcases h with (h | rfl) | rfl
  · rw [isAlphanum_iff] at h
    omega
  · decide
  · decide

/-- The word characters are the ASCII ones among the characters of names. -/
theorem isWordChar_iff {c : Char} : isWordChar c = true ↔ isNameChar c = true ∧ c.toNat < 128 := by
  have hsame : c.toNat < 128 → isNameChar c = isWordChar c := by
    intro hlt
    rw [isNameChar, isWordChar, isAlphanumeric_eq_isAlphanum hlt]
  constructor
  · intro h
    have hlt := toNat_lt_of_isWordChar h
    exact ⟨(hsame hlt).trans h, hlt⟩
  · rintro ⟨hname, hlt⟩
    rwa [← hsame hlt]

namespace Text

variable {name : Text}

/-! ## Keys -/

theorem ne_nil_of_isName (h : name.isName = true) : name ≠ [] := by
  rintro rfl
  cases h

theorem isNameChar_of_mem (h : name.isName = true) {c : Char} (hc : c ∈ name) :
    isNameChar c = true := by
  rw [isName, Bool.and_eq_true, List.all_eq_true] at h
  exact h.2 c hc

theorem not_mem_of_isName (h : name.isName = true) {c : Char} (hc : isNameChar c = false) :
    c ∉ name := by
  intro hmem
  rw [isNameChar_of_mem h hmem] at hc
  cases hc

theorem isName_of_forall_isWordChar (hne : name ≠ []) (hword : ∀ c ∈ name, isWordChar c = true) :
    name.isName = true := by
  rw [isName, Bool.and_eq_true, List.all_eq_true]
  exact ⟨by simpa using hne, fun c hc => (isWordChar_iff.1 (hword c hc)).1⟩

/-! ## Constructs -/

theorem ne_nil_of_isQualifiedName (h : name.isQualifiedName = true) : name ≠ [] := by
  rintro rfl
  cases h

theorem not_mem_of_isQualifiedName (h : name.isQualifiedName = true) {c : Char}
    (hc : isNameChar c = false) (hdot : c ≠ '.') : c ∉ name := by
  intro hmem
  rw [isQualifiedName, Bool.and_eq_true, List.all_eq_true] at h
  simpa [hc, hdot] using h.2 c hmem

theorem isBlankChar_eq_false_of_mem (h : name.isQualifiedName = true) {c : Char} (hc : c ∈ name) :
    isBlankChar c = false := by
  rw [isQualifiedName, Bool.and_eq_true, List.all_eq_true] at h
  rcases Bool.or_eq_true_iff.1 (h.2 c hc) with hname | hdot
  · exact isBlankChar_eq_false_of_isNameChar hname
  · obtain rfl : c = '.' := by simpa using hdot
    decide

end Text

theorem isQualifiedName_of_constructRefusal? {name : Text} (h : constructRefusal? name = none) :
    name.isQualifiedName = true := by
  unfold constructRefusal? at h
  split at h
  · cases h
  · split at h
    · assumption
    · cases h

theorem Text.isBlank_eq_false_of_isName {name : Text} (h : name.isName = true) :
    name.isBlank = false := by
  obtain ⟨c, rest, rfl⟩ := List.exists_cons_of_ne_nil (ne_nil_of_isName h)
  rw [isBlank, List.all_cons,
    isBlankChar_eq_false_of_isNameChar (isNameChar_of_mem h List.mem_cons_self), Bool.false_and]

theorem Rule.refusal?_eq_none_iff {rule : Rule} : rule.refusal? = none ↔
    rule.key.isName = true ∧ rule.anchor.isName = true ∧ rule.literal.isBlank = false := by
  unfold Rule.refusal?
  constructor
  · intro h
    split at h
    · cases h
    · next hblank =>
      rw [Option.map_eq_none_iff, List.find?_eq_none] at h
      rw [List.find?_eq_none] at hblank
      exact ⟨by simpa [get] using h .key (by simp), by simpa [get] using h .anchor (by simp),
        by simpa [get] using hblank .literal (by simp)⟩
  · rintro ⟨hkey, hanchor, hliteral⟩
    have hblank : ([Field.key, .anchor, .literal].find? fun field => (rule.get field).isBlank) =
        none := by
      simp [get, Text.isBlank_eq_false_of_isName hkey, Text.isBlank_eq_false_of_isName hanchor,
        hliteral]
    rw [hblank]
    simp [get, hkey, hanchor]

end ArgFill
