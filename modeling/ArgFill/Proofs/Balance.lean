import ArgFill.Brackets

/-!
# Nesting depth

`Brackets.depth?` reads a text with some lists open and tells how many are open behind it, unless
one of the closing brackets has no list left to close. With it the search for the end of a list
splits at every place of the text:

* `closingFrom?_append` : where the first part leaves the list open, the search goes on behind it;
* `closingFrom?_eq_some_iff` : the end is the closing bracket that the depth comes down to;
* `closingFrom?_insert` : a balanced text put in anywhere only moves the end;
* `paired_iff` : the depth comes back to nothing where counting brackets says that they pair up.
-/

namespace ArgFill

/-- Where an offset goes when `added` bytes are put in at `slot`. -/
def movedBy (slot added offset : Nat) : Nat := if offset < slot then offset else offset + added

theorem movedBy_of_lt {slot added offset : Nat} (h : offset < slot) :
    movedBy slot added offset = offset := if_pos h

theorem movedBy_of_le {slot added offset : Nat} (h : slot ≤ offset) :
    movedBy slot added offset = offset + added := if_neg (Nat.not_lt.2 h)

theorem movedBy_lt_movedBy {slot added a b : Nat} (h : a < b) :
    movedBy slot added a < movedBy slot added b := by
  unfold movedBy
  split <;> split <;> omega

namespace Brackets

variable {b : Brackets}

/-! ## The depth behind a text -/

/-- The number of lists that are open behind a text which begins with `depth` of them open. There is
none if a closing bracket stands where no list is open. -/
def depth? (b : Brackets) : Nat → Text → Option Nat
  | depth, [] => some depth
  | depth, c :: t =>
    if c = b.opening then depth? b (depth + 1) t
    else if c = b.closing then
      match depth with
      | 0 => none
      | depth + 1 => depth? b depth t
    else depth? b depth t

@[simp] theorem depth?_nil (d : Nat) : b.depth? d [] = some d := rfl

theorem depth?_opening (d : Nat) (t : Text) :
    b.depth? d (b.opening :: t) = b.depth? (d + 1) t := by
  simp [depth?]

theorem depth?_closing_succ (hne : b.opening ≠ b.closing) (d : Nat) (t : Text) :
    b.depth? (d + 1) (b.closing :: t) = b.depth? d t := by
  simp [depth?, hne.symm]

theorem depth?_cons_of_ne {c : Char} (ho : c ≠ b.opening) (hc : c ≠ b.closing) (d : Nat) (t : Text) :
    b.depth? d (c :: t) = b.depth? d t := by
  simp [depth?, ho, hc]

theorem depth?_closing_zero (hne : b.opening ≠ b.closing) (t : Text) :
    b.depth? 0 (b.closing :: t) = none := by
  simp [depth?, hne.symm]

theorem depth?_append (d : Nat) (x y : Text) :
    b.depth? d (x ++ y) = (b.depth? d x).bind fun e => b.depth? e y := by
  induction x generalizing d with
  | nil => rfl
  | cons c x ih =>
    rw [List.cons_append]
    by_cases ho : c = b.opening
    · subst ho
      rw [depth?_opening, depth?_opening, ih]
    · by_cases hc : c = b.closing
      · subst hc
        cases d with
        | zero => rw [depth?_closing_zero (Ne.symm ho), depth?_closing_zero (Ne.symm ho)]; rfl
        | succ d => rw [depth?_closing_succ (Ne.symm ho), depth?_closing_succ (Ne.symm ho), ih]
      · rw [depth?_cons_of_ne ho hc, depth?_cons_of_ne ho hc, ih]

theorem depth?_of_forall_ne {t : Text} (h : ∀ c ∈ t, c ≠ b.opening ∧ c ≠ b.closing) (d : Nat) :
    b.depth? d t = some d := by
  induction t with
  | nil => rfl
  | cons c t ih =>
    have hc := h c (by simp)
    rw [depth?_cons_of_ne hc.1 hc.2]
    exact ih fun e he => h e (by simp [he])

theorem depth?_add {d e : Nat} {t : Text} (h : b.depth? d t = some e) (k : Nat) :
    b.depth? (d + k) t = some (e + k) := by
  induction t generalizing d with
  | nil =>
    obtain rfl : d = e := by simpa using h
    rfl
  | cons c t ih =>
    by_cases ho : c = b.opening
    · subst ho
      rw [depth?_opening] at h ⊢
      rw [show d + k + 1 = d + 1 + k by omega]
      exact ih h
    · by_cases hc : c = b.closing
      · subst hc
        cases d with
        | zero => simp [depth?_closing_zero (Ne.symm ho)] at h
        | succ d =>
          rw [depth?_closing_succ (Ne.symm ho)] at h
          rw [show d + 1 + k = d + k + 1 by omega, depth?_closing_succ (Ne.symm ho)]
          exact ih h
      · rw [depth?_cons_of_ne ho hc] at h ⊢
        exact ih h

/-- A text that uses up lists which were open before it closes one too many when read alone. -/
theorem depth?_eq_none_of_lt {d e : Nat} {t : Text} (h : b.depth? d t = some e) (hlt : e < d) :
    b.depth? 0 t = none := by
  cases hz : b.depth? 0 t with
  | none => rfl
  | some f =>
    have := depth?_add hz d
    rw [Nat.zero_add, h] at this
    have : e = f + d := Option.some.inj this
    omega

/-- The depth behind a text is the depth before it, each opening bracket counted up and each closing
bracket down. -/
theorem count_of_depth? (hne : b.opening ≠ b.closing) {d e : Nat} {t : Text}
    (h : b.depth? d t = some e) : List.count b.closing t + e = List.count b.opening t + d := by
  induction t generalizing d with
  | nil =>
    obtain rfl : d = e := by simpa using h
    rfl
  | cons c t ih =>
    by_cases ho : c = b.opening
    · subst ho
      rw [depth?_opening] at h
      rw [List.count_cons_self, List.count_cons_of_ne hne]
      have := ih h
      omega
    · by_cases hc : c = b.closing
      · subst hc
        cases d with
        | zero => simp [depth?_closing_zero hne] at h
        | succ d =>
          rw [depth?_closing_succ hne] at h
          rw [List.count_cons_self, List.count_cons_of_ne hne.symm]
          have := ih h
          omega
      · rw [depth?_cons_of_ne ho hc] at h
        rw [List.count_cons_of_ne ho, List.count_cons_of_ne hc]
        exact ih h

/-- The first closing bracket that has no list to close, after a part that pairs up. -/
theorem exists_of_depth?_eq_none {d : Nat} {t : Text} (h : b.depth? d t = none) :
    ∃ inner back, t = inner ++ b.closing :: back ∧ b.depth? d inner = some 0 := by
  induction t generalizing d with
  | nil => simp at h
  | cons c t ih =>
    by_cases ho : c = b.opening
    · subst ho
      rw [depth?_opening] at h
      obtain ⟨inner, back, rfl, hi⟩ := ih h
      exact ⟨b.opening :: inner, back, rfl, by rw [depth?_opening]; exact hi⟩
    · by_cases hc : c = b.closing
      · subst hc
        cases d with
        | zero => exact ⟨[], t, rfl, rfl⟩
        | succ d =>
          rw [depth?_closing_succ (Ne.symm ho)] at h
          obtain ⟨inner, back, rfl, hi⟩ := ih h
          exact ⟨b.closing :: inner, back, rfl, by rw [depth?_closing_succ (Ne.symm ho)]; exact hi⟩
      · rw [depth?_cons_of_ne ho hc] at h
        obtain ⟨inner, back, rfl, hi⟩ := ih h
        exact ⟨c :: inner, back, rfl, by rw [depth?_cons_of_ne ho hc]; exact hi⟩

/-! ## Counting -/

/-- A text closes as many lists as it opens, and up to no place more than it has opened there. -/
structure Paired (b : Brackets) (t : Text) : Prop where
  same : List.count b.closing t = List.count b.opening t
  upTo : ∀ x y, t = x ++ y → List.count b.closing x ≤ List.count b.opening x

theorem paired_iff (hne : b.opening ≠ b.closing) {t : Text} :
    b.Paired t ↔ b.depth? 0 t = some 0 := by
  constructor
  · intro h
    cases hdepth : b.depth? 0 t with
    | none =>
      -- the first bracket that closes too much makes the closing ones the more
      obtain ⟨inner, back, rfl, hinner⟩ := exists_of_depth?_eq_none hdepth
      have hcount := count_of_depth? hne hinner
      have hmore := h.upTo (inner ++ [b.closing]) back (by simp)
      have hclose : List.count b.opening [b.closing] = 0 :=
        List.count_singleton.trans (by simp [hne.symm])
      rw [List.count_append, List.count_append, List.count_singleton_self, hclose] at hmore
      omega
    | some e =>
      have hcount := count_of_depth? hne hdepth
      have hsame := h.same
      obtain rfl : e = 0 := by omega
      rfl
  · intro h
    refine ⟨by simpa using count_of_depth? hne h, fun x y hsplit => ?_⟩
    rw [hsplit, depth?_append] at h
    obtain ⟨e, hx, -⟩ := Option.bind_eq_some_iff.1 h
    have := count_of_depth? hne hx
    omega

/-! ## The end of a list -/

theorem closingFrom?_cons_opening (d o : Nat) (t : Text) : b.closingFrom? d o (b.opening :: t) =
    b.closingFrom? (d + 1) (o + b.opening.utf8Size) t := by
  simp [closingFrom?]

theorem closingFrom?_cons_of_ne {c : Char} (ho : c ≠ b.opening) (hc : c ≠ b.closing) (d o : Nat)
    (t : Text) : b.closingFrom? d o (c :: t) = b.closingFrom? d (o + c.utf8Size) t := by
  simp [closingFrom?, ho, hc]

theorem closingFrom?_closing_zero (hne : b.opening ≠ b.closing) (o : Nat) (t : Text) :
    b.closingFrom? 0 o (b.closing :: t) = some o := by
  simp [closingFrom?, hne.symm]

theorem closingFrom?_closing_succ (hne : b.opening ≠ b.closing) (d o : Nat) (t : Text) :
    b.closingFrom? (d + 1) o (b.closing :: t) =
      b.closingFrom? d (o + b.closing.utf8Size) t := by
  simp [closingFrom?, hne.symm]

theorem closingFrom?_append {d e : Nat} {x : Text} (h : b.depth? d x = some e) (o : Nat) (y : Text) :
    b.closingFrom? d o (x ++ y) = b.closingFrom? e (o + x.size) y := by
  induction x generalizing d o with
  | nil =>
    obtain rfl : d = e := by simpa using h
    rfl
  | cons c x ih =>
    rw [List.cons_append, Text.size_cons, ← Nat.add_assoc]
    by_cases ho : c = b.opening
    · subst ho
      rw [depth?_opening] at h
      rw [closingFrom?_cons_opening, ih h]
    · by_cases hc : c = b.closing
      · subst hc
        cases d with
        | zero => simp [depth?_closing_zero (Ne.symm ho)] at h
        | succ d =>
          rw [depth?_closing_succ (Ne.symm ho)] at h
          rw [closingFrom?_closing_succ (Ne.symm ho), ih h]
      · rw [depth?_cons_of_ne ho hc] at h
        rw [closingFrom?_cons_of_ne ho hc, ih h]

/-- The end of a list stands in its text, and more text behind does not change it. -/
theorem closingFrom?_append_of_eq_some {d o e : Nat} {x : Text} (h : b.closingFrom? d o x = some e)
    (y : Text) : o ≤ e ∧ b.closingFrom? d o (x ++ y) = some e := by
  induction x generalizing d o with
  | nil => cases h
  | cons c x ih =>
    have hpos := c.utf8Size_pos
    rw [List.cons_append]
    by_cases ho : c = b.opening
    · subst ho
      rw [closingFrom?_cons_opening] at h ⊢
      obtain ⟨hle, hend⟩ := ih h
      exact ⟨by omega, hend⟩
    · by_cases hc : c = b.closing
      · subst hc
        cases d with
        | zero =>
          rw [closingFrom?_closing_zero (Ne.symm ho)] at h ⊢
          exact ⟨Nat.le_of_eq (Option.some.inj h), h⟩
        | succ d =>
          rw [closingFrom?_closing_succ (Ne.symm ho)] at h ⊢
          obtain ⟨hle, hend⟩ := ih h
          exact ⟨by omega, hend⟩
      · rw [closingFrom?_cons_of_ne ho hc] at h ⊢
        obtain ⟨hle, hend⟩ := ih h
        exact ⟨by omega, hend⟩

theorem closingFrom?_of_depth?_eq_some {d e : Nat} {t : Text} (h : b.depth? d t = some e) (o : Nat) :
    b.closingFrom? d o t = none := by
  have hend := closingFrom?_append h o []
  rwa [List.append_nil] at hend

/-- The end of a list is the closing bracket at which the depth comes down to nothing. -/
theorem closingFrom?_eq_some_iff (hne : b.opening ≠ b.closing) {d o e : Nat} {t : Text} :
    b.closingFrom? d o t = some e ↔
      ∃ inner back, t = inner ++ b.closing :: back ∧ b.depth? d inner = some 0 ∧
        e = o + inner.size := by
  constructor
  · intro h
    cases hd : b.depth? d t with
    | none =>
      obtain ⟨inner, back, rfl, hi⟩ := exists_of_depth?_eq_none hd
      rw [closingFrom?_append hi] at h
      have : o + inner.size = e := by simpa [closingFrom?, hne.symm] using h
      exact ⟨inner, back, rfl, hi, this.symm⟩
    | some f =>
      rw [closingFrom?_of_depth?_eq_some hd] at h
      cases h
  · rintro ⟨inner, back, rfl, hi, rfl⟩
    rw [closingFrom?_append hi]
    simp [closingFrom?, hne.symm]

theorem closingFrom?_of_eq (h : b.opening = b.closing) (d o : Nat) (t : Text) :
    b.closingFrom? d o t = none := by
  induction t generalizing d o with
  | nil => rfl
  | cons c t ih =>
    by_cases ho : c = b.opening
    · subst ho
      rw [closingFrom?_cons_opening]
      exact ih _ _
    · rw [closingFrom?_cons_of_ne ho (h ▸ ho)]
      exact ih _ _

theorem closingFrom?_offset (d o n : Nat) (t : Text) :
    b.closingFrom? d (o + n) t = (b.closingFrom? d o t).map (· + n) := by
  induction t generalizing d o with
  | nil => rfl
  | cons c t ih =>
    unfold closingFrom?
    rw [show o + n + c.utf8Size = o + c.utf8Size + n by omega]
    split
    · exact ih _ _
    · split
      · cases d with
        | zero => rfl
        | succ d => exact ih _ _
      · exact ih _ _

/-- A balanced text put in anywhere moves the end of the list if it stands before it, and has no
other effect. -/
theorem closingFrom?_insert {d o : Nat} {x added y : Text} (hne : b.opening ≠ b.closing)
    (hadded : b.depth? 0 added = some 0) :
    b.closingFrom? d o (x ++ added ++ y) =
      (b.closingFrom? d o (x ++ y)).map (movedBy (o + x.size) added.size) := by
  cases hx : b.depth? d x with
  | some e =>
    have hxa : b.depth? d (x ++ added) = some e := by
      have := depth?_add hadded e
      rw [Nat.zero_add] at this
      rw [depth?_append, hx]
      exact this
    rw [closingFrom?_append hx, closingFrom?_append hxa, Text.size_append, ← Nat.add_assoc,
      closingFrom?_offset]
    cases hy : b.closingFrom? e (o + x.size) y with
    | none => rfl
    | some f =>
      obtain ⟨inner, back, -, -, rfl⟩ := (closingFrom?_eq_some_iff hne).1 hy
      simp only [Option.map_some, movedBy_of_le (Nat.le_add_right _ _)]
  | none =>
    obtain ⟨inner, back, rfl, hi⟩ := exists_of_depth?_eq_none hx
    have hend : ∀ z, b.closingFrom? d o (inner ++ b.closing :: back ++ z) = some (o + inner.size) :=
      fun z => (closingFrom?_eq_some_iff hne).2 ⟨inner, back ++ z, by simp, hi, rfl⟩
    have hlt : o + inner.size < o + (inner ++ b.closing :: back).size := by
      have := b.closing.utf8Size_pos
      simp only [Text.size_append, Text.size_cons]
      omega
    rw [List.append_assoc _ added, hend, hend, Option.map_some, movedBy_of_lt hlt]

end Brackets

end ArgFill
