import ArgFill.Proofs.Presence
import ArgFill.Argument.Anchor

/-!
# Anchors and slots

`Reading` is the state in which anchors are looked for: the quoting and the number of open brackets.
An anchor stands where reading is at the top, and so does the comma that ends its value.

* `mem_anchors_iff` : the anchors of a name are the keys of that name at the top. That anchors do
  not overlap takes none away, because a name holds neither white space nor a colon;
* `slot?_eq_some` : the slot is right behind a comma at the top;
* `slot?_insert` : text put in there that has no anchor of a name and leaves reading at the top
  gives the name no slot that it did not have.
-/

namespace ArgFill

/-! ## Reading -/

/-- Where the reader of an argument list stands. -/
structure Reading where
  quoting : Quoting
  depth : Nat
  deriving DecidableEq

namespace Reading

def top : Reading := ⟨.outside, 0⟩

/-- Reading one character. A closing bracket without partner closes nothing. -/
def next : Reading → Char → Reading
  | ⟨.outside, depth⟩, c =>
    if Quoting.isQuote c then ⟨.inside c, depth⟩
    else if Quoting.opens c then ⟨.outside, depth + 1⟩
    else if Quoting.closes c then ⟨.outside, depth - 1⟩
    else ⟨.outside, depth⟩
  | ⟨quoting, depth⟩, c => ⟨quoting.next c, depth⟩

def through (r : Reading) (t : Text) : Reading := t.foldl next r

def passes (c : Char) : Bool := !Quoting.isQuote c && !Quoting.opens c && !Quoting.closes c

@[simp] theorem through_nil (r : Reading) : r.through [] = r := rfl

@[simp] theorem through_cons (r : Reading) (c : Char) (t : Text) :
    r.through (c :: t) = (r.next c).through t := rfl

theorem through_append (r : Reading) (x y : Text) : r.through (x ++ y) = (r.through x).through y :=
  List.foldl_append

theorem next_of_passes {c : Char} (h : passes c = true) (depth : Nat) :
    next ⟨.outside, depth⟩ c = ⟨.outside, depth⟩ := by
  simp only [passes, Bool.and_eq_true, Bool.not_eq_true'] at h
  simp [next, h.1.1, h.1.2, h.2]

theorem through_of_forall_passes {t : Text} (h : ∀ c ∈ t, passes c = true) (depth : Nat) :
    through ⟨.outside, depth⟩ t = ⟨.outside, depth⟩ := by
  induction t with
  | nil => rfl
  | cons c t ih =>
    rw [through_cons, next_of_passes (h c (by simp))]
    exact ih fun d hd => h d (by simp [hd])

theorem passes_of_isNameChar {c : Char} (h : isNameChar c = true) : passes c = true := by
  have hmarks : ∀ d ∈ ['\'', '"', '(', '[', '{', ')', ']', '}'], isNameChar d = false := by
    simp only [List.mem_cons, List.not_mem_nil, or_false]
    rintro d (rfl | rfl | rfl | rfl | rfl | rfl | rfl | rfl) <;> decide +kernel
  cases hp : passes c with
  | true => rfl
  | false =>
    have hmem : c ∈ ['\'', '"', '(', '[', '{', ')', ']', '}'] := by
      simp only [passes, Quoting.isQuote, Quoting.opens, Quoting.closes] at hp
      simp only [List.mem_cons, List.not_mem_nil, or_false]
      grind
    rw [hmarks c hmem] at h
    cases h

theorem passes_of_isGap {c : Char} (h : isGap c = true) : passes c = true := by
  rw [isGap, Bool.or_eq_true, beq_iff_eq, beq_iff_eq] at h
  rcases h with rfl | rfl <;> decide

end Reading

namespace Text

variable {key : Text}

/-! ## Anchors -/

/-- The text `value` stands behind the colon of an anchor. -/
def Anchored (args key value : Text) : Prop :=
  ∃ pre gaps, args = pre ++ (key ++ (gaps ++ ':' :: value)) ∧ Reading.top.through pre = .top ∧
    endsWord pre.getLast? = true ∧ ∀ c ∈ gaps, isGap c = true

theorem colonFollows_iff {t : Text} :
    t.colonFollows = true ↔ ∃ gaps rest, t = gaps ++ ':' :: rest ∧ ∀ c ∈ gaps, isGap c = true := by
  rw [colonFollows, beq_iff_eq, List.head?_eq_some_iff]
  constructor
  · rintro ⟨rest, h⟩
    exact ⟨t.takeWhile isGap, rest, by rw [← h, List.takeWhile_append_dropWhile],
      fun c hc => List.all_eq_true.1 List.all_takeWhile c hc⟩
  · rintro ⟨gaps, rest, rfl, hgaps⟩
    exact ⟨rest, by rw [List.dropWhile_append_of_pos hgaps, List.dropWhile_cons_of_neg (by decide)]⟩

theorem anchorsFrom_skip {x : Text} {b : Option Char} (h : x = [] → b = none) (q : Quoting)
    (d o : Nat) (y : Text) :
    anchorsFrom key x.length q d b o (x ++ y) = anchorsFrom key 0 q d none (o + x.size) y := by
  induction x generalizing b o with
  | nil => rw [h rfl]; rfl
  | cons c x ih =>
    rw [List.length_cons, List.cons_append, anchorsFrom, ih fun _ => rfl, size_cons, Nat.add_assoc]

theorem anchorsFrom_anchor (hkey : key.isName = true) {b : Option Char} (hb : endsWord b = true)
    {rest : Text} (hcolon : rest.colonFollows = true) (o : Nat) :
    anchorsFrom key 0 .outside 0 b o (key ++ rest) =
      ⟨o, key ++ rest⟩ :: anchorsFrom key 0 .outside 0 none (o + key.size) rest := by
  obtain ⟨c, k, rfl⟩ := List.exists_cons_of_ne_nil (ne_nil_of_isName hkey)
  have hc := Reading.passes_of_isNameChar (isNameChar_of_mem hkey List.mem_cons_self)
  simp only [Reading.passes, Bool.and_eq_true, Bool.not_eq_true'] at hc
  have hstart : startsWith (c :: (k ++ rest)) (c :: k) = true := startsWith_iff.2 ⟨rest, rfl⟩
  have hdrop : (c :: (k ++ rest)).drop (k.length + 1) = rest := by simp
  have hskip : k = [] → (if (k.length == 0) = true then none else some c) = (none : Option Char) := by
    rintro rfl
    rfl
  rw [List.cons_append, anchorsFrom]
  simp only [hc.1.1, hc.1.2, hc.2, hstart, hb, hcolon, hdrop, List.length_cons, beq_self_eq_true,
    Bool.and_self, if_true, Nat.add_sub_cancel, size_cons, Bool.false_eq_true, if_false]
  rw [anchorsFrom_skip hskip, Nat.add_assoc]

theorem anchorsFrom_cons {c : Char} {t : Text} {q : Quoting} {d : Nat} {b : Option Char}
    (h : ¬ (Reading.mk q d = .top ∧ startsWith (c :: t) key = true ∧ endsWord b = true ∧
      colonFollows ((c :: t).drop key.length) = true)) (o : Nat) :
    anchorsFrom key 0 q d b o (c :: t) =
      anchorsFrom key 0 (Reading.next ⟨q, d⟩ c).quoting (Reading.next ⟨q, d⟩ c).depth (some c)
        (o + c.utf8Size) t := by
  cases q with
  | inside quote => rfl
  | escaped quote => rfl
  | outside =>
    rw [anchorsFrom, Reading.next]
    split
    · rfl
    · split
      · rfl
      · split
        · rfl
        · rw [if_neg]
          simpa [Reading.top, and_assoc] using h

theorem exists_cons_of_colonFollows {t : Text} (h : t.colonFollows = true) :
    ∃ s rest, t = s :: rest ∧ isNameChar s = false := by
  obtain ⟨gaps, rest, rfl, hgaps⟩ := colonFollows_iff.1 h
  cases gaps with
  | nil => exact ⟨':', rest, rfl, isNameChar_colon⟩
  | cons s gaps =>
    exact ⟨s, gaps ++ ':' :: rest, rfl, isNameChar_eq_false_of_isGap (hgaps s List.mem_cons_self)⟩

theorem ne_nil_of_colonFollows (hkey : key.isName = true) {rest pre rest' : Text}
    (hcolon : rest.colonFollows = true) (h : rest = pre ++ (key ++ rest')) : pre ≠ [] := by
  rintro rfl
  obtain ⟨s, more, rfl, hs⟩ := exists_cons_of_colonFollows hcolon
  obtain ⟨c, k, rfl⟩ := List.exists_cons_of_ne_nil (ne_nil_of_isName hkey)
  obtain rfl : s = c := (List.cons.inj h).1
  exact not_mem_of_isName hkey hs List.mem_cons_self

/-- A second anchor begins behind the name of the first. -/
theorem eq_append_of_colonFollows (hkey : key.isName = true) {rest pre rest' : Text}
    (hcolon : rest.colonFollows = true) (hpre : pre ≠ []) (h : key ++ rest = pre ++ (key ++ rest')) :
    ∃ mid, pre = key ++ mid ∧ rest = mid ++ (key ++ rest') := by
  rcases List.append_eq_append_iff.1 h with ⟨mid, rfl, hmid⟩ | ⟨mid, hpremid, hmid⟩
  · exact ⟨mid, rfl, hmid⟩
  · -- the second name would reach over the end of the first
    obtain ⟨s, more, rfl, hs⟩ := exists_cons_of_colonFollows hcolon
    have hstart : startsWith (mid ++ s :: more) key = true := startsWith_iff.2 ⟨rest', hmid.symm⟩
    rw [startsWith_append_cons (not_mem_of_isName hkey hs)] at hstart
    obtain ⟨rest, hlen⟩ := startsWith_iff.1 hstart
    have h1 := congrArg List.length hpremid
    have h2 := congrArg List.length hlen
    have h3 := List.length_pos_iff.2 hpre
    simp only [List.length_append] at h1 h2
    omega

theorem getLast?_append_or {y : Text} (hy : y ≠ []) (x : Text) (b c : Option Char) :
    (x ++ y).getLast?.or b = y.getLast?.or c := by
  rw [List.getLast?_append, Option.or_assoc, List.getLast?_eq_some_getLast hy]
  rfl

theorem getLast?_append_cons (x : Text) (c : Char) (t : Text) :
    (x ++ c :: t).getLast? = t.getLast?.or (some c) := by
  rw [List.getLast?_append, List.getLast?_cons]
  cases t.getLast? <;> rfl

/-- The anchors found by a search are the keys at the top, wherever reading stands at its start. -/
theorem mem_anchorsFrom_iff (hkey : key.isName = true) {q : Quoting} {d : Nat} {b : Option Char}
    {o : Nat} {t : Text} {a : Anchor} : a ∈ anchorsFrom key 0 q d b o t ↔
      ∃ pre rest, t = pre ++ (key ++ rest) ∧ rest.colonFollows = true ∧
        Reading.through ⟨q, d⟩ pre = .top ∧ endsWord (pre.getLast?.or b) = true ∧
        a = ⟨o + Text.size pre, key ++ rest⟩ := by
  induction hn : t.length using Nat.strongRecOn generalizing q d b o t with
  | ind n ih =>
  subst hn
  cases t with
  | nil =>
    have hne := ne_nil_of_isName hkey
    simp [anchorsFrom, hne]
  | cons c t =>
    by_cases hanchor : Reading.mk q d = .top ∧ startsWith (c :: t) key = true ∧ endsWord b = true ∧
        colonFollows ((c :: t).drop key.length) = true
    · obtain ⟨htop, hstart, hb, hcolon⟩ := hanchor
      obtain ⟨rfl, rfl⟩ : q = .outside ∧ d = 0 := by simpa [Reading.top] using htop
      obtain ⟨rest, hrest⟩ := startsWith_iff.1 hstart
      rw [hrest, List.drop_left] at hcolon
      have hlt : rest.length < (c :: t).length := by
        have := List.length_pos_iff.2 (ne_nil_of_isName hkey)
        rw [hrest, List.length_append]
        omega
      have hthrough : Reading.through ⟨.outside, 0⟩ key = ⟨.outside, 0⟩ :=
        Reading.through_of_forall_passes
          (fun c hc => Reading.passes_of_isNameChar (isNameChar_of_mem hkey hc)) 0
      rw [hrest, anchorsFrom_anchor hkey hb hcolon, List.mem_cons, ih _ hlt rfl]
      constructor
      · rintro (rfl | ⟨pre, rest', hpre, hcolon', htop', hb', rfl⟩)
        · exact ⟨[], rest, rfl, hcolon, rfl, hb, rfl⟩
        · refine ⟨key ++ pre, rest', by rw [hpre, List.append_assoc], hcolon', ?_, ?_, ?_⟩
          · rw [Reading.through_append, hthrough, htop']
          · rwa [getLast?_append_or (ne_nil_of_colonFollows hkey hcolon hpre) key b none]
          · rw [size_append, Nat.add_assoc]
      · rintro ⟨pre, rest', hpre, hcolon', htop', hb', rfl⟩
        by_cases hnil : pre = []
        · subst hnil
          obtain rfl := List.append_cancel_left hpre
          exact Or.inl rfl
        · obtain ⟨mid, rfl, hmid⟩ := eq_append_of_colonFollows hkey hcolon hnil hpre
          refine Or.inr ⟨mid, rest', hmid, hcolon', ?_, ?_, by rw [size_append, Nat.add_assoc]⟩
          · rwa [Reading.through_append, hthrough] at htop'
          · rwa [getLast?_append_or (ne_nil_of_colonFollows hkey hcolon hmid) key b none] at hb'
    · rw [anchorsFrom_cons hanchor, ih t.length (by simp) rfl]
      constructor
      · rintro ⟨pre, rest, rfl, hcolon, htop, hb, rfl⟩
        refine ⟨c :: pre, rest, rfl, hcolon, htop, ?_, by simp [Nat.add_assoc]⟩
        rwa [getLast?_cons_or]
      · rintro ⟨pre, rest, hpre, hcolon, htop, hb, rfl⟩
        cases pre with
        | nil =>
          refine absurd ⟨htop, startsWith_iff.2 ⟨rest, hpre⟩, hb, ?_⟩ hanchor
          rw [hpre, List.nil_append, List.drop_left]
          exact hcolon
        | cons e pre =>
          obtain ⟨rfl, rfl⟩ := List.cons.inj hpre
          rw [getLast?_cons_or] at hb
          exact ⟨pre, rest, rfl, hcolon, htop, hb, by simp [Nat.add_assoc]⟩

theorem mem_anchors_iff (hkey : key.isName = true) {args : Text} {a : Anchor} :
    a ∈ args.anchors key ↔ ∃ pre rest, args = pre ++ (key ++ rest) ∧ rest.colonFollows = true ∧
      Reading.top.through pre = .top ∧ endsWord pre.getLast? = true ∧
      a = ⟨Text.size pre, key ++ rest⟩ := by
  rw [anchors, if_neg (by simpa using ne_nil_of_isName hkey), mem_anchorsFrom_iff hkey]
  simp only [Option.or_none, Nat.zero_add]
  rfl

theorem value_eq (hkey : key.isName = true) {gaps : Text} (hgaps : ∀ c ∈ gaps, isGap c = true)
    (o : Nat) (v : Text) : (Anchor.mk o (key ++ (gaps ++ ':' :: v))).value =
      (o + (key ++ gaps).size + 1, v) := by
  have hname : ∀ c ∈ key ++ gaps, decide (c ≠ ':') = true := by
    intro c hc
    rw [decide_eq_true_eq]
    rintro rfl
    rcases List.mem_append.1 hc with hc | hc
    · exact not_mem_of_isName hkey isNameChar_colon hc
    · exact absurd (hgaps _ hc) (by decide)
  have htake : (key ++ gaps ++ ':' :: v).takeWhile (· ≠ ':') = key ++ gaps := by
    rw [List.takeWhile_append_of_pos hname, List.takeWhile_cons_of_neg (by decide), List.append_nil]
  have hdrop : (key ++ gaps ++ ':' :: v).drop ((key ++ gaps).length + 1) = v := by
    rw [← List.drop_drop, List.drop_left]
    rfl
  rw [← List.append_assoc, Anchor.value]
  simp only [htake, hdrop]
  rfl

theorem through_anchored (hkey : key.isName = true) {pre gaps : Text}
    (htop : Reading.top.through pre = .top) (hgaps : ∀ c ∈ gaps, isGap c = true) (u : Text) :
    Reading.top.through (pre ++ (key ++ (gaps ++ ':' :: u))) = Reading.top.through u := by
  have hpasses : ∀ c ∈ key ++ (gaps ++ [':']), Reading.passes c = true := by
    intro c hc
    simp only [List.mem_append, List.mem_cons, List.not_mem_nil, or_false] at hc
    rcases hc with hc | hc | rfl
    · exact Reading.passes_of_isNameChar (isNameChar_of_mem hkey hc)
    · exact Reading.passes_of_isGap (hgaps c hc)
    · decide
  have hneutral : Reading.top.through (key ++ (gaps ++ [':'])) = .top :=
    Reading.through_of_forall_passes hpasses 0
  have hsplit : key ++ (gaps ++ ':' :: u) = key ++ (gaps ++ [':']) ++ u := by simp
  rw [hsplit, Reading.through_append, htop, Reading.through_append, hneutral]

end Text

/-! ## Values -/

theorem valueEnd?_comma (o : Nat) (t : Text) : valueEnd? .outside 0 o (',' :: t) = some (o + 1) := rfl

theorem Quoting.closes_cases {c : Char} (h : closes c = true) : c = ')' ∨ c = ']' ∨ c = '}' := by
  simpa [closes, or_assoc] using h

theorem valueEnd?_closing {c : Char} (hc : Quoting.closes c = true) (o : Nat) (t : Text) :
    valueEnd? .outside 0 o (c :: t) = none := by
  rcases Quoting.closes_cases hc with rfl | rfl | rfl <;> rfl

theorem valueEnd?_cons {c : Char} {q : Quoting} {d : Nat}
    (h : ¬ (Reading.mk q d = .top ∧ (Quoting.closes c = true ∨ c = ','))) (o : Nat) (t : Text) :
    valueEnd? q d o (c :: t) = valueEnd? (Reading.next ⟨q, d⟩ c).quoting
      (Reading.next ⟨q, d⟩ c).depth (o + c.utf8Size) t := by
  cases q with
  | inside quote => rfl
  | escaped quote => rfl
  | outside =>
    simp only [valueEnd?, Reading.next]
    split
    · rfl
    · split
      · rfl
      · split
        · cases d with
          | zero => exact absurd ⟨rfl, Or.inl ‹_›⟩ h
          | succ d => rfl
        · rw [if_neg]
          simpa [Reading.top, and_comm] using fun hcomma hd => h ⟨by rw [hd]; rfl, Or.inr hcomma⟩

theorem valueEnd?_cases (q : Quoting) (d : Nat) (c : Char) :
    Reading.mk q d = .top ∧ Quoting.closes c = true ∨ Reading.mk q d = .top ∧ c = ',' ∨
      ¬ (Reading.mk q d = .top ∧ (Quoting.closes c = true ∨ c = ',')) := by
  rcases Decidable.em (Reading.mk q d = .top ∧ (Quoting.closes c = true ∨ c = ',')) with
    ⟨htop, hc | hc⟩ | hgo
  · exact Or.inl ⟨htop, hc⟩
  · exact Or.inr (Or.inl ⟨htop, hc⟩)
  · exact Or.inr (Or.inr hgo)

theorem valueEnd?_offset (q : Quoting) (d o n : Nat) (t : Text) :
    valueEnd? q d (o + n) t = (valueEnd? q d o t).map (· + n) := by
  induction t generalizing q d o with
  | nil => simp [valueEnd?]
  | cons c t ih =>
    rcases valueEnd?_cases q d c with ⟨⟨⟩, hc⟩ | ⟨⟨⟩, rfl⟩ | hgo
    · rw [valueEnd?_closing hc, valueEnd?_closing hc, Option.map_none]
    · rw [valueEnd?_comma, valueEnd?_comma, Option.map_some, Nat.add_right_comm]
    · rw [valueEnd?_cons hgo, valueEnd?_cons hgo, Nat.add_right_comm, ih]

/-- A value ends right behind a comma at the top. -/
theorem valueEnd?_eq_some {q : Quoting} {d o e : Nat} {t : Text} (h : valueEnd? q d o t = some e) :
    ∃ u w, t = u ++ ',' :: w ∧ e = o + Text.size u + 1 ∧ Reading.through ⟨q, d⟩ u = .top := by
  induction t generalizing q d o with
  | nil => simp [valueEnd?] at h
  | cons c t ih =>
    rcases valueEnd?_cases q d c with ⟨⟨⟩, hc⟩ | ⟨⟨⟩, rfl⟩ | hgo
    · rw [valueEnd?_closing hc] at h
      cases h
    · rw [valueEnd?_comma, Option.some.injEq] at h
      exact ⟨[], t, rfl, h.symm, rfl⟩
    · rw [valueEnd?_cons hgo] at h
      obtain ⟨u, w, rfl, rfl, htop⟩ := ih h
      exact ⟨c :: u, w, rfl, by rw [Text.size_cons]; omega, htop⟩

theorem valueEnd?_append_comma {q : Quoting} {d : Nat} {u : Text}
    (h : Reading.through ⟨q, d⟩ u = .top) (o : Nat) (w w' : Text) :
    valueEnd? q d o (u ++ ',' :: w) = valueEnd? q d o (u ++ ',' :: w') := by
  induction u generalizing q d o with
  | nil =>
    cases h
    rfl
  | cons c u ih =>
    rw [List.cons_append, List.cons_append]
    rcases valueEnd?_cases q d c with ⟨⟨⟩, hc⟩ | ⟨⟨⟩, rfl⟩ | hgo
    · rw [valueEnd?_closing hc, valueEnd?_closing hc]
    · rfl
    · rw [valueEnd?_cons hgo, valueEnd?_cons hgo]
      exact ih h _

/-! ## Slots -/

namespace Text

variable {key : Text}

theorem exists_item_of_mem_anchors (hkey : key.isName = true) {args : Text} {a : Anchor}
    (ha : a ∈ args.anchors key) {place : Nat} (h : a.slot? = some place) :
    ∃ x rest y, args = x ++ (key ++ rest ++ ',' :: y) ∧ a.offset = Text.size x ∧
      place = Text.size (x ++ (key ++ rest)) + 1 ∧ Reading.top.through (x ++ (key ++ rest)) = .top := by
  obtain ⟨pre, rest, rfl, hcolon, htop, -, rfl⟩ := (mem_anchors_iff hkey).1 ha
  obtain ⟨gaps, v, rfl, hgaps⟩ := colonFollows_iff.1 hcolon
  rw [Anchor.slot?, value_eq hkey hgaps] at h
  obtain ⟨u, w, rfl, rfl, hu⟩ := valueEnd?_eq_some h
  refine ⟨pre, gaps ++ ':' :: u, w, by simp, rfl, ?_, ?_⟩
  · have : ':'.utf8Size = 1 := rfl
    simp only [size_append, size_cons]
    omega
  · rw [through_anchored hkey htop hgaps]
    exact hu

/-- The slot is right behind a comma at the top. -/
theorem slot?_eq_some (hkey : key.isName = true) {args : Text} {place : Nat}
    (h : args.slot? key = some place) :
    ∃ x y, args = x ++ ',' :: y ∧ place = Text.size x + 1 ∧ Reading.top.through x = .top := by
  obtain ⟨a, ha, hplace⟩ := List.exists_of_findSome?_eq_some h
  obtain ⟨x, rest, y, rfl, -, rfl, htop⟩ := exists_item_of_mem_anchors hkey ha hplace
  exact ⟨x ++ (key ++ rest), y, by simp, rfl, htop⟩

theorem slot?_eq_none_iff (hkey : key.isName = true) {args : Text} : args.slot? key = none ↔
    ∀ value, args.Anchored key value → valueEnd? .outside 0 0 value = none := by
  rw [slot?, List.findSome?_eq_none_iff]
  have hopen : ∀ o v, valueEnd? .outside 0 o v = none ↔ valueEnd? .outside 0 0 v = none := by
    intro o v
    have := valueEnd?_offset .outside 0 0 o v
    rw [Nat.zero_add] at this
    rw [this, Option.map_eq_none_iff]
  constructor
  · rintro h v ⟨pre, gaps, rfl, htop, hb, hgaps⟩
    have := h ⟨Text.size pre, key ++ (gaps ++ ':' :: v)⟩ ((mem_anchors_iff hkey).2
      ⟨pre, gaps ++ ':' :: v, rfl, colonFollows_iff.2 ⟨gaps, v, rfl, hgaps⟩, htop, hb, rfl⟩)
    rw [Anchor.slot?, value_eq hkey hgaps] at this
    exact (hopen _ _).1 this
  · intro h a ha
    obtain ⟨pre, rest, rfl, hcolon, htop, hb, rfl⟩ := (mem_anchors_iff hkey).1 ha
    obtain ⟨gaps, v, rfl, hgaps⟩ := colonFollows_iff.1 hcolon
    rw [Anchor.slot?, value_eq hkey hgaps]
    exact (hopen _ _).2 (h v ⟨pre, gaps, rfl, htop, hb, hgaps⟩)

theorem comma_notMem_append_gaps (hkey : key.isName = true) {gaps : Text}
    (hgaps : ∀ c ∈ gaps, isGap c = true) : ',' ∉ key ++ gaps := by
  rw [List.mem_append]
  rintro (hc | hc)
  · exact not_mem_of_isName hkey isNameChar_comma hc
  · exact absurd (hgaps _ hc) (by decide)

/-- The text `added`, which follows the character `before`, has no anchor of the name, not even a
nested one. -/
def AnchorFree (key : Text) (before : Char) (added : Text) : Prop :=
  ∀ pre gaps value, added = pre ++ (key ++ (gaps ++ ':' :: value)) → (∀ c ∈ gaps, isGap c = true) →
    endsWord (pre.getLast?.or (some before)) = false

/-- An anchor of the longer list is one of the old list, with the same end of its value. -/
theorem exists_anchored_of_insert (hkey : key.isName = true) {x added y value : Text}
    (hx : Reading.top.through x = .top) (hadded : Reading.top.through added = .top)
    (hfree : AnchorFree key ',' added)
    (h : (x ++ ',' :: (added ++ ',' :: y)).Anchored key value) :
    ∃ old, (x ++ ',' :: y).Anchored key old ∧
      valueEnd? .outside 0 0 value = valueEnd? .outside 0 0 old := by
  obtain ⟨pre, gaps, heq, htop, hb, hgaps⟩ := h
  have hname := comma_notMem_append_gaps hkey hgaps
  have hcomma : ∀ z, Reading.top.through (x ++ ',' :: z) = Reading.top.through z := by
    intro z
    rw [Reading.through_append, hx]
    rfl
  rw [← List.append_assoc, ← List.append_assoc] at heq
  rcases append_cons_eq_append_cons (by decide) heq with ⟨mid, hmid, hrest⟩ | ⟨mid, hmid, rfl⟩
  · rw [List.append_assoc] at hmid
    obtain ⟨mid, rfl, rfl⟩ := eq_append_cons_of_not_mem hname hmid.symm
    rcases append_cons_eq_append_cons (by decide) hrest with ⟨late, hlate, rfl⟩ | ⟨late, rfl, rfl⟩
    · -- the anchor stands behind what was added
      obtain ⟨late, rfl, rfl⟩ := eq_append_cons_of_not_mem hname hlate.symm
      refine ⟨value, ⟨x ++ ',' :: late, gaps, by simp, ?_, ?_, hgaps⟩, rfl⟩
      · rw [hcomma, Reading.through_append, hadded] at htop
        rw [hcomma]
        exact htop
      · rw [getLast?_append_cons] at hb ⊢
        rwa [getLast?_append_cons, Option.or_assoc] at hb
    · -- it would stand in what was added
      have := hfree mid gaps late (by simp) hgaps
      rw [getLast?_append_cons, this] at hb
      cases hb
  · -- the anchor stands before it, and its value reaches there
    refine ⟨mid ++ ',' :: y, ⟨pre, gaps, by simp [hmid], htop, hb, hgaps⟩, ?_⟩
    rw [hmid, List.append_assoc, List.append_assoc, through_anchored hkey htop hgaps] at hx
    exact valueEnd?_append_comma hx 0 _ _

/-- Text put in at the top, behind a comma, gives no slot to a name that it does not anchor. -/
theorem slot?_insert (hkey : key.isName = true) {x added y : Text}
    (hx : Reading.top.through x = .top) (hadded : Reading.top.through added = .top)
    (hfree : AnchorFree key ',' added) (h : (x ++ ',' :: y).slot? key = none) :
    (x ++ ',' :: (added ++ ',' :: y)).slot? key = none := by
  rw [slot?_eq_none_iff hkey] at h ⊢
  intro value hvalue
  obtain ⟨old, hold, hsame⟩ := exists_anchored_of_insert hkey hx hadded hfree hvalue
  rw [hsame]
  exact h old hold

end Text

end ArgFill
