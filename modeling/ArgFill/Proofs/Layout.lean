import ArgFill.Proofs.Insertion
import ArgFill.Proofs.Slot

/-!
# Texts with and without indentation

A `Layout` is read in two ways, which differ in the spaces and tabs behind some of the line feeds. No
reader of argument lists can tell the two texts apart:

* `depth?_indented` : they open and close the same lists, if neither bracket is a space or a tab;
* `hasKey_indented` : they have the same keys;
* `meet_slot?` : a name has its slot at one place of the layout in both, or has none in either
  (`Meet`). This takes most of the work, because what is quoted is read on across line ends.
-/

namespace ArgFill

/-- A part of a text that comes about with and without indentation: a character of both texts, or a
line feed of both that the indentation follows in one of them. -/
inductive Piece where
  | char (c : Char)
  | line (indent : Text) (gaps : ∀ c ∈ indent, isGap c = true)

namespace Piece

def plain : Piece → Char
  | char c => c
  | line _ _ => '\n'

def indented : Piece → Text
  | char c => [c]
  | line indent _ => '\n' :: indent

end Piece

abbrev Layout := List Piece

namespace Layout

def plain (l : Layout) : Text := l.map Piece.plain

def indented (l : Layout) : Text := l.flatMap Piece.indented

def chars (t : Text) : Layout := t.map .char

variable {l : Layout}

@[simp] theorem plain_nil : plain [] = [] := rfl

@[simp] theorem indented_nil : indented [] = [] := rfl

@[simp] theorem plain_cons (p : Piece) (l : Layout) : plain (p :: l) = p.plain :: plain l := rfl

@[simp] theorem indented_cons (p : Piece) (l : Layout) :
    indented (p :: l) = p.indented ++ indented l := List.flatMap_cons

theorem plain_char (c : Char) (l : Layout) : plain (.char c :: l) = c :: plain l := rfl

theorem indented_char (c : Char) (l : Layout) : indented (.char c :: l) = c :: indented l := rfl

theorem plain_line {indent : Text} (gaps : ∀ c ∈ indent, isGap c = true) (l : Layout) :
    plain (.line indent gaps :: l) = '\n' :: plain l := rfl

theorem indented_line {indent : Text} (gaps : ∀ c ∈ indent, isGap c = true) (l : Layout) :
    indented (.line indent gaps :: l) = '\n' :: (indent ++ indented l) := rfl

@[simp] theorem plain_append (a b : Layout) : plain (a ++ b) = a.plain ++ b.plain := List.map_append

@[simp] theorem indented_append (a b : Layout) : indented (a ++ b) = a.indented ++ b.indented :=
  List.flatMap_append

@[simp] theorem plain_chars (t : Text) : (chars t).plain = t := by
  simp [plain, chars, Piece.plain, Function.comp_def]

@[simp] theorem indented_chars (t : Text) : (chars t).indented = t := by
  induction t with
  | nil => rfl
  | cons c t ih => exact congrArg (c :: ·) ih

theorem chars_append (t u : Text) : chars (t ++ u) = chars t ++ chars u := List.map_append

/-! ## Places -/

/-- A place of the text without indentation is a place of the layout. -/
theorem exists_append_of_plain {t u : Text} (h : l.plain = t ++ u) :
    ∃ front back : Layout, l = front ++ back ∧ front.plain = t ∧ back.plain = u :=
  List.map_eq_append_iff.1 h

theorem exists_cons_of_plain {c : Char} {t : Text} (h : l.plain = c :: t) :
    ∃ (p : Piece) (back : Layout), l = p :: back ∧ p.plain = c ∧ back.plain = t :=
  List.map_eq_cons_iff.1 h

theorem eq_chars_of_plain {t : Text} (ht : '\n' ∉ t) (h : l.plain = t) : l = chars t := by
  induction l generalizing t with
  | nil =>
    subst h
    rfl
  | cons p l ih =>
    subst h
    rw [plain_cons, List.mem_cons, not_or] at ht
    cases p with
    | char c => exact congrArg (Piece.char c :: ·) (ih ht.2 rfl)
    | line indent gaps => exact absurd rfl ht.1

theorem exists_chars_of_plain {t u : Text} (ht : '\n' ∉ t) (h : l.plain = t ++ u) :
    ∃ back : Layout, l = chars t ++ back ∧ back.plain = u := by
  obtain ⟨front, back, rfl, hfront, hback⟩ := exists_append_of_plain h
  exact ⟨back, by rw [eq_chars_of_plain ht hfront], hback⟩

theorem exists_chars_of_indented {t u : Text} (ht : '\n' ∉ t) (h : l.indented = t ++ u) :
    ∃ back : Layout, l = chars t ++ back ∧ back.indented = u := by
  induction t generalizing l with
  | nil => exact ⟨l, rfl, h⟩
  | cons c t ih =>
    rw [List.mem_cons, not_or] at ht
    cases l with
    | nil => cases h
    | cons p l =>
      cases p with
      | char d =>
        obtain ⟨rfl, hrest⟩ := List.cons.inj h
        obtain ⟨back, rfl, hback⟩ := ih ht.2 hrest
        exact ⟨back, rfl, hback⟩
      | line indent gaps => exact absurd (List.cons.inj h).1 ht.1

/-- Two offsets, or none, at one place of a layout that begins at offset `o` of one text and `o'` of
the other. -/
inductive Meet (l : Layout) (o o' : Nat) : Option Nat → Option Nat → Prop
  | none : Meet l o o' none none
  | some (front back : Layout) (h : l = front ++ back) :
      Meet l o o' (some (o + front.plain.size)) (some (o' + front.indented.size))

section

variable {o o' : Nat} {r r' : Option Nat}

theorem Meet.append (front : Layout)
    (h : l.Meet (o + front.plain.size) (o' + front.indented.size) r r') :
    (front ++ l).Meet o o' r r' := by
  cases h with
  | none => exact .none
  | some mid back h =>
    have hmeet : (front ++ l).Meet o o' _ _ := .some (front ++ mid) back (by rw [h, List.append_assoc])
    simpa only [plain_append, indented_append, Text.size_append, Nat.add_assoc] using hmeet

theorem Meet.char (c : Char) (h : l.Meet (o + c.utf8Size) (o' + c.utf8Size) r r') :
    Meet (.char c :: l) o o' r r' :=
  Meet.append [.char c] h

theorem Meet.line {indent : Text} (gaps : ∀ c ∈ indent, isGap c = true)
    (h : l.Meet (o + '\n'.utf8Size) (o' + '\n'.utf8Size + indent.size) r r') :
    Meet (.line indent gaps :: l) o o' r r' := by
  have hsize : Text.size (indented [.line indent gaps]) = '\n'.utf8Size + indent.size := by
    rw [indented_line, indented_nil, List.append_nil, Text.size_cons]
  refine Meet.append [.line indent gaps] ?_
  rw [hsize, ← Nat.add_assoc]
  exact h

end

/-! ## Lists and keys -/

theorem depth?_indented {b : Brackets} (ho : isGap b.opening = false)
    (hc : isGap b.closing = false) (d : Nat) (l : Layout) :
    b.depth? d l.indented = b.depth? d l.plain := by
  induction l generalizing d with
  | nil => rfl
  | cons p l ih =>
    cases p with
    | char c =>
      change b.depth? d ([c] ++ indented l) = b.depth? d ([c] ++ plain l)
      rw [Brackets.depth?_append, Brackets.depth?_append]
      simp only [ih]
    | line indent gaps =>
      have hindent : ∀ c ∈ indent, c ≠ b.opening ∧ c ≠ b.closing := by
        intro c hmem
        have hgap := gaps c hmem
        constructor <;> rintro rfl <;> simp_all
      have hpass : ∀ e, b.depth? e (indent ++ indented l) = b.depth? e (plain l) :=
        fun e => (Brackets.depth?_append_of_forall_ne hindent).trans (ih e)
      change b.depth? d (['\n'] ++ (indent ++ indented l)) = b.depth? d (['\n'] ++ plain l)
      rw [Brackets.depth?_append, Brackets.depth?_append]
      simp only [hpass]

theorem hasKey_indented {key : Text} (hkey : key.isName = true) (l : Layout) :
    l.indented.hasKey key = l.plain.hasKey key := by
  have hbehind : ∀ t : Text, (t ++ l.indented).hasKey key = (t ++ l.plain).hasKey key := by
    induction l with
    | nil => exact fun t => rfl
    | cons p l ih =>
      intro t
      cases p with
      | char c =>
        have hc := ih (t ++ [c])
        rw [List.append_assoc, List.append_assoc] at hc
        exact hc
      | line indent gaps =>
        have hline : (indented l).hasKey key = (plain l).hasKey key := ih []
        rw [indented_line, plain_line, Text.hasKey_append_lineFeed hkey,
          Text.hasKey_append_lineFeed hkey, Text.hasKey_gaps_append hkey gaps, hline]
  exact hbehind []

end Layout

/-! ## Spaces and tabs behind a line feed -/

/-- Only quotes begin quoted text. -/
def Quoting.Proper : Quoting → Prop
  | .outside => True
  | .inside quote | .escaped quote => isQuote quote = true

namespace Reading

theorem proper_next {q : Quoting} (h : q.Proper) (d : Nat) (c : Char) :
    (Reading.next ⟨q, d⟩ c).quoting.Proper := by
  cases q with
  | outside =>
    unfold next
    by_cases hquote : Quoting.isQuote c = true
    · simp only [hquote, if_true]
      exact hquote
    · simp only [hquote, Bool.false_eq_true, if_false]
      split
      · trivial
      · split <;> trivial
  | inside quote =>
    change (if c = '\\' then Quoting.escaped quote
      else if c = quote then .outside else .inside quote).Proper
    split
    · exact h
    · split
      · trivial
      · exact h
  | escaped quote => exact h

/-- Behind a line feed spaces and tabs change nothing: no backslash stands right before them. -/
theorem next_lineFeed_gap {q : Quoting} (h : q.Proper) (d : Nat) {c : Char} (hc : isGap c = true) :
    (Reading.next ⟨q, d⟩ '\n').next c = Reading.next ⟨q, d⟩ '\n' := by
  have hstay : ∀ quote e, Quoting.isQuote quote = true → e = c ∨ e = '\n' →
      Reading.next ⟨.inside quote, d⟩ e = ⟨.inside quote, d⟩ := by
    intro quote e hquote he
    rw [Quoting.isQuote, Bool.or_eq_true, beq_iff_eq, beq_iff_eq] at hquote
    rw [isGap, Bool.or_eq_true, beq_iff_eq, beq_iff_eq] at hc
    rcases hquote with rfl | rfl <;> rcases he with rfl | rfl <;> rcases hc with rfl | rfl <;> rfl
  cases q with
  | outside => exact next_of_passes (passes_of_isGap hc) d
  | inside quote => rw [hstay quote '\n' h (Or.inr rfl), hstay quote c h (Or.inl rfl)]
  | escaped quote => exact hstay quote c h (Or.inl rfl)

end Reading

/-! ## Slots -/

section

variable {r : Reading} (hr : ∀ c, isGap c = true → r.next c = r) {gaps : Text}
  (hgaps : ∀ c ∈ gaps, isGap c = true)

include hr hgaps

theorem valueEnd?_gaps_append (o : Nat) (t : Text) :
    valueEnd? r.quoting r.depth o (gaps ++ t) = valueEnd? r.quoting r.depth (o + gaps.size) t := by
  induction gaps generalizing o with
  | nil => rfl
  | cons c gaps ih =>
    have hc := hgaps c List.mem_cons_self
    have hnot : ¬ (Reading.mk r.quoting r.depth = .top ∧ (Quoting.closes c = true ∨ c = ',')) := by
      rintro ⟨-, hcloses⟩
      rw [isGap, Bool.or_eq_true, beq_iff_eq, beq_iff_eq] at hc
      rcases hc with rfl | rfl <;> exact absurd hcloses (by decide)
    rw [List.cons_append, valueEnd?_cons hnot, hr c hc, Text.size_cons, ← Nat.add_assoc]
    exact ih (fun d hd => hgaps d (List.mem_cons_of_mem c hd)) _

theorem anchorsFrom_gaps_append {key : Text} (hkey : key.isName = true) (b : Option Char) (o : Nat)
    (t : Text) : Text.anchorsFrom key 0 r.quoting r.depth b o (gaps ++ t) =
      Text.anchorsFrom key 0 r.quoting r.depth (gaps.getLast?.or b) (o + gaps.size) t := by
  induction gaps generalizing b o with
  | nil => rfl
  | cons c gaps ih =>
    have hc := hgaps c List.mem_cons_self
    rw [List.cons_append, Text.anchorsFrom_cons, hr c hc, Text.size_cons, ← Nat.add_assoc,
      Text.getLast?_cons_or]
    · exact ih (fun d hd => hgaps d (List.mem_cons_of_mem c hd)) _ _
    · rintro ⟨-, hstart, -⟩
      obtain ⟨rest, hrest⟩ := Text.startsWith_iff.1 hstart
      obtain ⟨d, k, rfl⟩ := List.exists_cons_of_ne_nil (Text.ne_nil_of_isName hkey)
      obtain rfl : c = d := (List.cons.inj hrest).1
      exact Text.not_mem_of_isName hkey (isNameChar_eq_false_of_isGap hc) List.mem_cons_self

end

namespace Layout

variable {l : Layout}

theorem meet_valueEnd? {q : Quoting} (hq : q.Proper) (d o o' : Nat) (l : Layout) :
    l.Meet o o' (valueEnd? q d o l.plain) (valueEnd? q d o' l.indented) := by
  induction l generalizing q d o o' with
  | nil => exact .none
  | cons p l ih =>
    cases p with
    | char c =>
      rw [plain_char, indented_char]
      rcases valueEnd?_cases q d c with ⟨⟨⟩, hc⟩ | ⟨⟨⟩, rfl⟩ | hgo
      · rw [valueEnd?_closing hc, valueEnd?_closing hc]
        exact .none
      · exact .some [.char ','] l rfl
      · rw [valueEnd?_cons hgo, valueEnd?_cons hgo]
        exact Meet.char c (ih (Reading.proper_next hq d c) _ _ _)
    | line indent gaps =>
      have hnot : ¬ (Reading.mk q d = .top ∧ (Quoting.closes '\n' = true ∨ '\n' = ',')) := by
        rintro ⟨-, hcloses⟩
        exact absurd hcloses (by decide)
      rw [plain_line, indented_line, valueEnd?_cons hnot, valueEnd?_cons hnot,
        valueEnd?_gaps_append (fun c hc => Reading.next_lineFeed_gap hq d hc) gaps]
      exact Meet.line gaps (ih (Reading.proper_next hq d '\n') _ _ _)

/-- A key and its colon, which hold no line feed, begin both texts or neither. -/
theorem begins_iff {key : Text} (hkey : key.isName = true) (l : Layout) {t : Text}
    (ht : t = l.plain ∨ t = l.indented) :
    (Text.startsWith t key = true ∧ Text.colonFollows (t.drop key.length) = true) ↔
      ∃ gaps value, l = chars (key ++ (gaps ++ [':'])) ++ value ∧ ∀ c ∈ gaps, isGap c = true := by
  constructor
  · rintro ⟨hstart, hcolon⟩
    obtain ⟨rest, rfl⟩ := Text.startsWith_iff.1 hstart
    rw [List.drop_left] at hcolon
    obtain ⟨gaps, value, rfl, hgaps⟩ := Text.colonFollows_iff.1 hcolon
    have hline : '\n' ∉ key ++ (gaps ++ [':']) := by
      simp only [List.mem_append, List.mem_singleton, not_or]
      exact ⟨Text.not_mem_of_isName hkey isNameChar_lineFeed,
        fun hmem => absurd (hgaps _ hmem) (by decide), by decide⟩
    have hsplit : key ++ (gaps ++ ':' :: value) = key ++ (gaps ++ [':']) ++ value := by simp
    rw [hsplit] at ht
    rcases ht with ht | ht
    · obtain ⟨back, hback, -⟩ := exists_chars_of_plain hline ht.symm
      exact ⟨gaps, back, hback, hgaps⟩
    · obtain ⟨back, hback, -⟩ := exists_chars_of_indented hline ht.symm
      exact ⟨gaps, back, hback, hgaps⟩
  · rintro ⟨gaps, value, rfl, hgaps⟩
    obtain ⟨rest, rfl⟩ : ∃ rest, t = key ++ (gaps ++ ':' :: rest) := by
      rcases ht with rfl | rfl
      · exact ⟨value.plain, by simp⟩
      · exact ⟨value.indented, by simp⟩
    rw [List.drop_left]
    exact ⟨Text.startsWith_iff.2 ⟨_, rfl⟩, Text.colonFollows_iff.2 ⟨gaps, rest, rfl, hgaps⟩⟩

theorem meet_slot?_anchor {key : Text} (hkey : key.isName = true) {gaps : Text}
    (hgaps : ∀ c ∈ gaps, isGap c = true) (o o' : Nat) (value : Layout) :
    (chars (key ++ (gaps ++ [':'])) ++ value).Meet o o'
      (Anchor.slot? ⟨o, key ++ (gaps ++ ':' :: value.plain)⟩)
      (Anchor.slot? ⟨o', key ++ (gaps ++ ':' :: value.indented)⟩) := by
  have hslot : ∀ o v, Anchor.slot? ⟨o, key ++ (gaps ++ ':' :: v)⟩ =
      valueEnd? .outside 0 (o + Text.size (key ++ (gaps ++ [':']))) v := by
    intro o v
    have hsize : o + Text.size (key ++ (gaps ++ [':'])) = o + Text.size (key ++ gaps) + 1 := by
      rw [← List.append_assoc, Text.size_append, ← Nat.add_assoc]
      rfl
    rw [Anchor.slot?, Text.value_eq hkey hgaps, hsize]
  rw [hslot, hslot]
  refine Meet.append _ ?_
  rw [plain_chars, indented_chars]
  exact meet_valueEnd? (q := .outside) trivial 0 _ _ value

theorem meet_anchorsFrom {key : Text} (hkey : key.isName = true) {q : Quoting} (hq : q.Proper)
    (d : Nat) {b b' : Option Char} (hb : endsWord b = endsWord b') (o o' : Nat) (l : Layout) :
    l.Meet o o' ((Text.anchorsFrom key 0 q d b o l.plain).findSome? Anchor.slot?)
      ((Text.anchorsFrom key 0 q d b' o' l.indented).findSome? Anchor.slot?) := by
  induction hn : l.length using Nat.strongRecOn generalizing q d b b' o o' l with
  | ind n ih =>
  subst hn
  by_cases hanchor : (Reading.mk q d = .top ∧ endsWord b = true) ∧
      ∃ gaps value, l = chars (key ++ (gaps ++ [':'])) ++ value ∧ ∀ c ∈ gaps, isGap c = true
  · obtain ⟨⟨⟨⟩, hword⟩, gaps, value, rfl, hgaps⟩ := hanchor
    have hcolon : ∀ v, Text.colonFollows (gaps ++ ':' :: v) = true :=
      fun v => Text.colonFollows_iff.2 ⟨gaps, v, rfl, hgaps⟩
    have hvalue := meet_slot?_anchor hkey hgaps o o' value
    have hshorter : (chars (gaps ++ [':']) ++ value).length <
        (chars (key ++ (gaps ++ [':'])) ++ value).length := by
      have := List.length_pos_iff.2 (Text.ne_nil_of_isName hkey)
      simp only [chars, List.length_append, List.length_map]
      omega
    have hlater := Meet.append (chars key) (ih _ hshorter (q := .outside) trivial 0
      (show endsWord none = endsWord none from rfl) (o + (chars key).plain.size)
      (o' + (chars key).indented.size) (chars (gaps ++ [':']) ++ value) rfl)
    simp only [plain_append, indented_append, plain_chars, indented_chars, List.append_assoc,
      List.cons_append, List.nil_append, chars_append] at hvalue hlater ⊢
    rw [Text.anchorsFrom_anchor hkey hword (hcolon _),
      Text.anchorsFrom_anchor hkey (hb ▸ hword) (hcolon _), List.findSome?_cons, List.findSome?_cons]
    generalize Anchor.slot? ⟨o, key ++ (gaps ++ ':' :: value.plain)⟩ = r at hvalue ⊢
    generalize Anchor.slot? ⟨o', key ++ (gaps ++ ':' :: value.indented)⟩ = r' at hvalue ⊢
    cases hvalue with
    | none => exact hlater
    | some front back h => exact .some front back h
  · have hpass : ∀ t e, (t = l.plain ∨ t = l.indented) → endsWord e = endsWord b →
        ¬ (Reading.mk q d = .top ∧ Text.startsWith t key = true ∧ endsWord e = true ∧
          Text.colonFollows (t.drop key.length) = true) := by
      rintro t e ht he ⟨htop, hstart, hword, hcolon⟩
      exact hanchor ⟨⟨htop, he ▸ hword⟩, (begins_iff hkey l ht).1 ⟨hstart, hcolon⟩⟩
    cases l with
    | nil => exact .none
    | cons p l =>
      have hplain := hpass _ b (Or.inl rfl) rfl
      have hindented := hpass _ b' (Or.inr rfl) hb.symm
      have hnext := Reading.proper_next hq d
      cases p with
      | char c =>
        rw [plain_char] at hplain ⊢
        rw [indented_char] at hindented ⊢
        rw [Text.anchorsFrom_cons hplain, Text.anchorsFrom_cons hindented]
        exact Meet.char c (ih l.length (by simp) (hnext c) _ rfl _ _ l rfl)
      | line indent gaps =>
        rw [plain_line] at hplain ⊢
        rw [indented_line] at hindented ⊢
        have hword : endsWord (some '\n') = endsWord (indent.getLast?.or (some '\n')) := by
          cases hlast : indent.getLast? with
          | none => rfl
          | some c =>
            have hc := isWordChar_eq_false_of_isGap (gaps c (List.mem_of_getLast? hlast))
            simp only [Option.some_or, endsWord, hc]
            rfl
        rw [Text.anchorsFrom_cons hplain, Text.anchorsFrom_cons hindented,
          anchorsFrom_gaps_append (fun c hc => Reading.next_lineFeed_gap hq d hc) gaps hkey]
        exact Meet.line gaps (ih l.length (by simp) (hnext '\n') _ hword _ _ l rfl)

/-- A name has its slot at one place of a layout. -/
theorem meet_slot? {key : Text} (hkey : key.isName = true) (l : Layout) :
    l.Meet 0 0 (l.plain.slot? key) (l.indented.slot? key) := by
  have hne : key.isEmpty = false := by simpa using Text.ne_nil_of_isName hkey
  simp only [Text.slot?, Text.anchors, hne, Bool.false_eq_true, if_false]
  exact meet_anchorsFrom hkey (q := .outside) trivial 0 rfl 0 0 l

end Layout

end ArgFill
