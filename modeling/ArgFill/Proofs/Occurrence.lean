import ArgFill.Argument.Presence

/-!
# Where words occur

The search for a word passes over a text once. It splits at every character that the word does not
hold, because no occurrence can lie across it:

* `mem_occurrencesFrom` : an occurrence is a place where the word stands;
* `mem_occurrencesFrom_of_endsWord` : where a name may begin, a word made of characters of words is
  not missed;
* `occurrencesFrom_append_cons` : the occurrences before and behind a character outside the word;
* `occurrencesFrom_append` : more text at the end takes no occurrence away;
* `map_view_occurrencesFrom` : what is seen at the occurrences does not hang on where the text
  begins.
-/

namespace ArgFill

namespace Occurrence

def extend (o : Occurrence) (t : Text) : Occurrence := { o with after := o.after ++ t }

def shift (n : Nat) (o : Occurrence) : Occurrence := { o with offset := o.offset + n }

/-- What tells whether an occurrence is a name of its own, and what follows. -/
def view (o : Occurrence) : Bool × Text := (endsWord o.before, o.after)

end Occurrence

namespace Text

theorem startsWith_iff {t w : Text} : startsWith t w = true ↔ ∃ rest, t = w ++ rest := by
  rw [startsWith, List.isPrefixOf_iff_prefix]
  exact ⟨fun ⟨rest, h⟩ => ⟨rest, h.symm⟩, fun ⟨rest, h⟩ => ⟨rest, h.symm⟩⟩

theorem append_inj_of_size_eq {x y x' y' : Text} (h : x ++ y = x' ++ y') (hsize : x.size = x'.size) :
    x = x' ∧ y = y' := by
  have hcut := cut?_size_append x y
  rw [h, hsize, cut?_size_append] at hcut
  obtain ⟨rfl, rfl⟩ := Prod.mk.inj (Option.some.inj hcut)
  exact ⟨rfl, rfl⟩

/-- The place with fewer bytes before it stands before the other. -/
theorem exists_append_of_size_le {x y x' y' : Text} (h : x ++ y = x' ++ y')
    (hle : x.size ≤ x'.size) : ∃ mid, x' = x ++ mid ∧ y = mid ++ y' := by
  rcases List.append_eq_append_iff.1 h with ⟨mid, hx, hy⟩ | ⟨mid, rfl, rfl⟩
  · exact ⟨mid, hx, hy⟩
  · cases mid with
    | nil => exact ⟨[], by simp, rfl⟩
    | cons c mid =>
      have hpos := c.utf8Size_pos
      rw [size_append, size_cons] at hle
      omega

/-- Of two places in a text, one stands before the other unless they are the same. -/
theorem append_cons_cases {s e : Char} {front back before rest : Text}
    (h : front ++ s :: back = before ++ e :: rest) :
    (front = before ∧ s = e ∧ back = rest) ∨
      (∃ mid, before = front ++ s :: mid ∧ back = mid ++ e :: rest) ∨
      ∃ mid, front = before ++ e :: mid ∧ rest = mid ++ s :: back := by
  rcases List.append_eq_append_iff.1 h with ⟨mid, rfl, hmid⟩ | ⟨mid, rfl, hmid⟩
  · cases mid with
    | nil =>
      obtain ⟨rfl, rfl⟩ := List.cons.inj hmid
      exact Or.inl ⟨(List.append_nil front).symm, rfl, rfl⟩
    | cons d mid =>
      obtain ⟨rfl, rfl⟩ := List.cons.inj hmid
      exact Or.inr (Or.inl ⟨mid, rfl, rfl⟩)
  · cases mid with
    | nil =>
      obtain ⟨rfl, rfl⟩ := List.cons.inj hmid
      exact Or.inl ⟨List.append_nil before, rfl, rfl⟩
    | cons d mid =>
      obtain ⟨rfl, rfl⟩ := List.cons.inj hmid
      exact Or.inr (Or.inr ⟨mid, rfl, rfl⟩)

theorem append_cons_eq_append_cons {s e : Char} (hse : s ≠ e) {front back before rest : Text}
    (h : front ++ s :: back = before ++ e :: rest) :
    (∃ mid, before = front ++ s :: mid ∧ back = mid ++ e :: rest) ∨
      ∃ mid, front = before ++ e :: mid ∧ rest = mid ++ s :: back :=
  (append_cons_cases h).resolve_left fun hsame => hse hsame.2.1

theorem eq_append_cons_of_not_mem {s : Char} {front back before rest : Text} (hs : s ∉ rest)
    (h : front ++ s :: back = before ++ rest) :
    ∃ mid, before = front ++ s :: mid ∧ back = mid ++ rest := by
  rcases List.append_eq_append_iff.1 h with ⟨mid, rfl, hmid⟩ | ⟨mid, rfl, rfl⟩
  · cases mid with
    | nil => exact absurd (by rw [← List.nil_append rest, ← hmid]; simp) hs
    | cons d mid =>
      obtain ⟨rfl, rfl⟩ := List.cons.inj hmid
      exact ⟨mid, rfl, rfl⟩
  · simp at hs

/-- A word that does not hold `s` is not looked for beyond `s`. -/
theorem startsWith_append_cons {w : Text} {s : Char} (hs : s ∉ w) (x y : Text) :
    startsWith (x ++ s :: y) w = startsWith x w := by
  rw [Bool.eq_iff_iff, startsWith_iff, startsWith_iff]
  constructor
  · rintro ⟨rest, h⟩
    rcases List.append_eq_append_iff.1 h with ⟨mid, rfl, hmid⟩ | ⟨mid, rfl, -⟩
    · cases mid with
      | nil => exact ⟨[], by simp⟩
      | cons e mid =>
        obtain rfl : s = e := (List.cons.inj hmid).1
        simp at hs
    · exact ⟨mid, rfl⟩
  · rintro ⟨rest, rfl⟩
    exact ⟨rest ++ s :: y, by simp⟩

theorem dropWhile_append_cons {p : Char → Bool} {s : Char} (hs : p s = false) (x y : Text) :
    (x ++ s :: y).dropWhile p = x.dropWhile p ++ s :: y := by
  induction x with
  | nil => simp [hs]
  | cons c x ih =>
    rw [List.cons_append, List.dropWhile_cons, List.dropWhile_cons]
    split
    · exact ih
    · rfl

theorem takeWhile_append_cons {p : Char → Bool} {s : Char} (hs : p s = false) (x y : Text) :
    (x ++ s :: y).takeWhile p = x.takeWhile p := by
  induction x with
  | nil => simp [hs]
  | cons c x ih =>
    rw [List.cons_append, List.takeWhile_cons, List.takeWhile_cons]
    split
    · rw [ih]
    · rfl

theorem getLast?_cons_or (c : Char) (t : Text) (b : Option Char) :
    (c :: t).getLast?.or b = t.getLast?.or (some c) := by
  rw [List.getLast?_cons]
  cases t.getLast? <;> rfl

theorem occurrencesFrom_nil (w : Text) (k : Nat) (b : Option Char) (o : Nat) :
    occurrencesFrom w k b o [] = [] := by
  cases k <;> rfl

theorem occurrencesFrom_skip (w : Text) (k : Nat) (b : Option Char) (o : Nat) (c : Char) (t : Text) :
    occurrencesFrom w (k + 1) b o (c :: t) = occurrencesFrom w k (some c) (o + c.utf8Size) t := rfl

theorem occurrencesFrom_found {w : Text} {c : Char} {t : Text} (h : startsWith (c :: t) w = true)
    (b : Option Char) (o : Nat) :
    occurrencesFrom w 0 b o (c :: t) = ⟨o, b, (c :: t).drop w.length⟩ ::
      occurrencesFrom w (w.length - 1) (some c) (o + c.utf8Size) t := by
  simp [occurrencesFrom, h]

theorem occurrencesFrom_passed {w : Text} {c : Char} {t : Text} (h : startsWith (c :: t) w = false)
    (b : Option Char) (o : Nat) :
    occurrencesFrom w 0 b o (c :: t) = occurrencesFrom w 0 (some c) (o + c.utf8Size) t := by
  simp [occurrencesFrom, h]

theorem mem_occurrencesFrom {w : Text} {k : Nat} {b : Option Char} {o : Nat} {t : Text}
    {a : Occurrence} (h : a ∈ occurrencesFrom w k b o t) :
    ∃ pre : Text, t = pre ++ w ++ a.after ∧ a.offset = o + pre.size ∧
      a.before = pre.getLast?.or b := by
  induction t generalizing k b o with
  | nil => simp [occurrencesFrom_nil] at h
  | cons c t ih =>
    have later : ∀ {k}, a ∈ occurrencesFrom w k (some c) (o + c.utf8Size) t →
        ∃ pre : Text, c :: t = pre ++ w ++ a.after ∧ a.offset = o + pre.size ∧
          a.before = pre.getLast?.or b := by
      intro k hk
      obtain ⟨pre, rfl, ho, hb⟩ := ih hk
      exact ⟨c :: pre, by simp, by simp [ho]; omega, by rw [hb, getLast?_cons_or]⟩
    cases k with
    | succ k => exact later h
    | zero =>
      cases hw : startsWith (c :: t) w with
      | false =>
        rw [occurrencesFrom_passed hw] at h
        exact later h
      | true =>
        rw [occurrencesFrom_found hw] at h
        rcases List.mem_cons.1 h with rfl | h
        · obtain ⟨rest, hrest⟩ := startsWith_iff.1 hw
          exact ⟨[], by simp [hrest], by simp, rfl⟩
        · exact later h

theorem occurrences_eq {w : Text} (hw : w ≠ []) (t : Text) :
    t.occurrences w = occurrencesFrom w 0 none 0 t := by
  rw [occurrences, if_neg (by simpa using hw)]

theorem mem_occurrences {w t : Text} {a : Occurrence} (h : a ∈ t.occurrences w) :
    ∃ pre, t = pre ++ w ++ a.after ∧ a.offset = Text.size pre ∧ a.before = pre.getLast? := by
  by_cases hw : w = []
  · subst hw
    cases h
  · rw [occurrences_eq hw] at h
    obtain ⟨pre, rfl, hoffset, hbefore⟩ := mem_occurrencesFrom h
    rw [Nat.zero_add] at hoffset
    rw [Option.or_none] at hbefore
    exact ⟨pre, rfl, hoffset, hbefore⟩

theorem occurrencesFrom_append_cons {w : Text} {s : Char} (hs : s ∉ w) (hw : w ≠ [])
    {k : Nat} {x : Text} (hk : k ≤ x.length) (b : Option Char) (o : Nat) (y : Text) :
    occurrencesFrom w k b o (x ++ s :: y) =
      (occurrencesFrom w k b o x).map (·.extend (s :: y)) ++
        occurrencesFrom w 0 (some s) (o + x.size + s.utf8Size) y := by
  induction x generalizing k b o with
  | nil =>
    obtain rfl : k = 0 := by simpa using hk
    have hnot : startsWith (s :: y) w = false := by
      have := startsWith_append_cons hs [] y
      rw [List.nil_append] at this
      rw [this]
      cases w with
      | nil => exact absurd rfl hw
      | cons e w => rfl
    rw [List.nil_append, occurrencesFrom_passed hnot]
    simp [occurrencesFrom_nil]
  | cons c x ih =>
    rw [List.cons_append, size_cons, ← Nat.add_assoc]
    cases k with
    | succ k =>
      rw [occurrencesFrom_skip, occurrencesFrom_skip]
      exact ih (by simpa using hk) _ _
    | zero =>
      have hsame : startsWith (c :: (x ++ s :: y)) w = startsWith (c :: x) w :=
        startsWith_append_cons hs (c :: x) y
      cases hc : startsWith (c :: x) w with
      | false =>
        rw [occurrencesFrom_passed hc, occurrencesFrom_passed (hsame.trans hc)]
        exact ih (Nat.zero_le _) _ _
      | true =>
        obtain ⟨rest, hrest⟩ := startsWith_iff.1 hc
        have hlen : w.length ≤ (c :: x).length := by rw [hrest]; simp
        rw [occurrencesFrom_found hc, occurrencesFrom_found (hsame.trans hc), List.map_cons,
          List.cons_append, ih (by simp at hlen; omega)]
        congr 1
        rw [Occurrence.extend, ← List.cons_append, List.drop_append_of_le_length hlen]

theorem occurrencesFrom_of_length_lt {w t : Text} (h : t.length < w.length) (k : Nat)
    (b : Option Char) (o : Nat) : occurrencesFrom w k b o t = [] := by
  refine List.eq_nil_iff_forall_not_mem.2 fun a ha => ?_
  obtain ⟨pre, rfl, -, -⟩ := mem_occurrencesFrom ha
  simp at h
  omega

theorem occurrencesFrom_append (w : Text) (k : Nat) (b : Option Char) (o : Nat) (x y : Text) :
    ∃ more, occurrencesFrom w k b o (x ++ y) =
      (occurrencesFrom w k b o x).map (·.extend y) ++ more := by
  induction x generalizing k b o with
  | nil => exact ⟨_, by rw [occurrencesFrom_nil]; rfl⟩
  | cons c x ih =>
    rw [List.cons_append]
    cases k with
    | succ k => exact ih _ _ _
    | zero =>
      cases hc : startsWith (c :: x) w with
      | true =>
        obtain ⟨rest, hrest⟩ := startsWith_iff.1 hc
        have hcy : startsWith (c :: (x ++ y)) w = true :=
          startsWith_iff.2 ⟨rest ++ y, by rw [← List.cons_append, hrest, List.append_assoc]⟩
        have hlen : w.length ≤ (c :: x).length := by rw [hrest]; simp
        obtain ⟨more, hmore⟩ := ih (w.length - 1) (some c) (o + c.utf8Size)
        refine ⟨more, ?_⟩
        rw [occurrencesFrom_found hc, occurrencesFrom_found hcy, hmore, List.map_cons,
          List.cons_append]
        congr 1
        rw [Occurrence.extend, ← List.cons_append, List.drop_append_of_le_length hlen]
      | false =>
        rw [occurrencesFrom_passed hc]
        cases hcy : startsWith (c :: (x ++ y)) w with
        | false =>
          rw [occurrencesFrom_passed hcy]
          exact ih _ _ _
        | true =>
          -- the word reaches beyond `x`, so nothing is left of `x` for it to occur in
          have hlt : x.length < w.length := by
            obtain ⟨rest, hrest⟩ := startsWith_iff.1 hcy
            rcases List.append_eq_append_iff.1 (List.cons_append ▸ hrest) with
              ⟨mid, rfl, -⟩ | ⟨mid, hmid, -⟩
            · rw [List.length_append, List.length_cons]
              omega
            · rw [startsWith_iff.2 ⟨mid, hmid⟩] at hc
              cases hc
          exact ⟨_, by rw [occurrencesFrom_of_length_lt hlt, List.map_nil, List.nil_append]⟩

/-- Characters that belong to an occurrence already found are passed over. -/
theorem occurrencesFrom_length (w : Text) (b : Option Char) (o : Nat) (x y : Text) :
    occurrencesFrom w x.length b o (x ++ y) =
      occurrencesFrom w 0 (x.getLast?.or b) (o + x.size) y := by
  induction x generalizing b o with
  | nil => rfl
  | cons c x ih =>
    rw [List.length_cons, List.cons_append, occurrencesFrom_skip, ih, size_cons, ← Nat.add_assoc,
      getLast?_cons_or]

theorem occurrencesFrom_word {w : Text} (hw : w ≠ []) (b : Option Char) (o : Nat) (rest : Text) :
    occurrencesFrom w 0 b o (w ++ rest) =
      ⟨o, b, rest⟩ :: occurrencesFrom w 0 w.getLast? (o + w.size) rest := by
  obtain ⟨c, v, rfl⟩ := List.exists_cons_of_ne_nil hw
  have hstart : startsWith (c :: (v ++ rest)) (c :: v) = true := startsWith_iff.2 ⟨rest, rfl⟩
  rw [List.cons_append, occurrencesFrom_found hstart, ← List.cons_append, List.drop_left,
    List.length_cons, Nat.add_sub_cancel, occurrencesFrom_length, size_cons, Nat.add_assoc,
    List.getLast?_cons]
  cases v.getLast? <;> rfl

/-- No occurrence found before can reach over a place where a name may begin. -/
theorem mem_occurrencesFrom_of_endsWord {w : Text} (hw : w ≠ [])
    (hword : ∀ c ∈ w, isWordChar c = true) {pre rest : Text} {k : Nat} {b : Option Char}
    (hskip : ∀ c ∈ (pre ++ (w ++ rest)).take k, isWordChar c = true)
    (hk : k ≠ 0 → endsWord b = false) (hb : endsWord (pre.getLast?.or b) = true) (o : Nat) :
    ⟨o + pre.size, pre.getLast?.or b, rest⟩ ∈ occurrencesFrom w k b o (pre ++ (w ++ rest)) := by
  induction pre generalizing k b o with
  | nil =>
    cases k with
    | succ k =>
      rw [List.getLast?_nil, Option.none_or, hk (Nat.succ_ne_zero k)] at hb
      cases hb
    | zero =>
      rw [List.nil_append, occurrencesFrom_word hw]
      exact List.mem_cons_self
  | cons c pre ih =>
    rw [getLast?_cons_or] at hb ⊢
    rw [List.cons_append, size_cons, ← Nat.add_assoc]
    cases k with
    | succ k =>
      rw [occurrencesFrom_skip]
      rw [List.cons_append, List.take_succ_cons] at hskip
      refine ih (fun d hd => hskip d (List.mem_cons_of_mem c hd)) (fun _ => ?_) hb _
      simp [endsWord, hskip c List.mem_cons_self]
    | zero =>
      cases hc : startsWith (c :: (pre ++ (w ++ rest))) w with
      | false =>
        rw [occurrencesFrom_passed hc]
        exact ih (fun d hd => by simp at hd) (fun h => absurd rfl h) hb _
      | true =>
        obtain ⟨d, v, rfl⟩ := List.exists_cons_of_ne_nil hw
        obtain ⟨later, hlater⟩ := startsWith_iff.1 hc
        obtain ⟨rfl, hsame⟩ := List.cons.inj hlater
        rw [occurrencesFrom_found hc, List.length_cons, Nat.add_sub_cancel]
        refine List.mem_cons_of_mem _ (ih (fun d hd => ?_) (fun _ => ?_) hb _)
        · rw [hsame, List.append_eq, List.take_left] at hd
          exact hword d (List.mem_cons_of_mem c hd)
        · simp [endsWord, hword c List.mem_cons_self]

theorem mem_occurrencesFrom_of_endsWord_getLast? {w : Text} (hw : w ≠ [])
    (hword : ∀ c ∈ w, isWordChar c = true) {pre : Text} (hb : endsWord pre.getLast? = true)
    (rest : Text) :
    ⟨pre.size, pre.getLast?, rest⟩ ∈ occurrencesFrom w 0 none 0 (pre ++ (w ++ rest)) := by
  have hlast : endsWord (pre.getLast?.or none) = true := by rwa [Option.or_none]
  have hfound : ⟨0 + pre.size, pre.getLast?.or none, rest⟩ ∈
      occurrencesFrom w 0 none 0 (pre ++ (w ++ rest)) :=
    mem_occurrencesFrom_of_endsWord hw hword (fun c hc => by simp at hc)
      (fun hzero => absurd rfl hzero) hlast 0
  rwa [Option.or_none, Nat.zero_add] at hfound

/-- What holds between an occurrence and those in the text behind it holds between any two
occurrences, in their order. -/
theorem pairwise_occurrencesFrom {w : Text} (hw : w ≠ []) {R : Occurrence → Occurrence → Prop}
    (hR : ∀ o b a, a ∈ occurrencesFrom w 0 b (Occurrence.offset o + w.size) o.after → R o a)
    (k : Nat) (b : Option Char) (o : Nat) (t : Text) :
    (occurrencesFrom w k b o t).Pairwise R := by
  induction t generalizing k b o with
  | nil => rw [occurrencesFrom_nil]; exact List.Pairwise.nil
  | cons c t ih =>
    cases k with
    | succ k => exact ih _ _ _
    | zero =>
      cases hc : startsWith (c :: t) w with
      | false =>
        rw [occurrencesFrom_passed hc]
        exact ih _ _ _
      | true =>
        obtain ⟨rest, hrest⟩ := startsWith_iff.1 hc
        have hlater := occurrencesFrom_word hw b o rest
        rw [← hrest, occurrencesFrom_found hc] at hlater
        rw [occurrencesFrom_found hc]
        refine List.Pairwise.cons (fun a ha => ?_) (ih _ _ _)
        rw [(List.cons.inj hlater).2] at ha
        refine hR _ w.getLast? a ?_
        rwa [hrest, List.drop_left]

theorem occurrencesFrom_offset (w : Text) (k : Nat) (b : Option Char) (o n : Nat) (t : Text) :
    occurrencesFrom w k b (o + n) t = (occurrencesFrom w k b o t).map (Occurrence.shift n) := by
  induction t generalizing k b o with
  | nil => simp [occurrencesFrom_nil]
  | cons c t ih =>
    have hnext : o + n + c.utf8Size = o + c.utf8Size + n := by omega
    cases k with
    | succ k => rw [occurrencesFrom_skip, occurrencesFrom_skip, hnext, ih]
    | zero =>
      cases hc : startsWith (c :: t) w with
      | true =>
        rw [occurrencesFrom_found hc, occurrencesFrom_found hc, hnext, ih]
        rfl
      | false => rw [occurrencesFrom_passed hc, occurrencesFrom_passed hc, hnext, ih]

theorem map_view_occurrencesFrom {b b' : Option Char} (h : endsWord b = endsWord b') (w : Text)
    (k o o' : Nat) (t : Text) :
    (occurrencesFrom w k b o t).map Occurrence.view =
      (occurrencesFrom w k b' o' t).map Occurrence.view := by
  induction t generalizing k b b' o o' with
  | nil => simp [occurrencesFrom_nil]
  | cons c t ih =>
    cases k with
    | succ k => exact ih rfl _ _ _
    | zero =>
      cases hc : startsWith (c :: t) w with
      | true =>
        rw [occurrencesFrom_found hc, occurrencesFrom_found hc, List.map_cons, List.map_cons,
          ih rfl _ _ (o' + c.utf8Size), Occurrence.view, Occurrence.view, h]
      | false =>
        rw [occurrencesFrom_passed hc, occurrencesFrom_passed hc]
        exact ih rfl _ _ _

end Text

end ArgFill
