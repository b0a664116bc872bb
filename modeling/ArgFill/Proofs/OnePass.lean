import ArgFill.Proofs.Turn
import Mathlib.Data.List.Sort

/-!
# Slots in one pass

The search for a slot jumps: behind an anchor without a slot it begins anew, and the end of a value
is looked for with a count of brackets of its own. Here it is told by one reader that goes through
the argument list once, and through a value once.

* `Text.spots` : every place of a text with the state in which the reader reaches it;
* `Spot.isCandidate` : the places at which a key may be an anchor;
* `Text.terminator?` : the place behind the comma that ends a value;
* `slot_eq_first_terminated` : the slot of a rule is that of the first candidate with a terminator;
* `Text.slot?_append_comma` : so a comma at the top splits a list into two that are searched one
  after the other;
* `Text.slot?_insert_moved` : and text without a slot that is put in there moves those behind it.
-/

namespace ArgFill

/-- A place in a text that is read from left to right: the number of bytes and the character before
it, where the reader stands with regard to quotes and brackets, and the text from there. -/
structure Spot where
  offset : Nat
  before : Option Char
  reading : Reading
  after : Text

namespace Text

/-- The places of a text that begins at byte `offset` behind the character `before`. -/
def spotsFrom : Reading → Option Char → Nat → Text → List Spot
  | _, _, _, [] => []
  | r, before, offset, c :: t =>
    ⟨offset, before, r, c :: t⟩ :: spotsFrom (r.next c) (some c) (offset + c.utf8Size) t

def spots (t : Text) : List Spot := spotsFrom .top none 0 t

end Text

namespace Spot

/-- May `key` be an anchor here? It stands outside quotes and brackets, not as the tail of a longer
name, and spaces and tabs at most are between it and a colon. -/
def isCandidate (key : Text) (p : Spot) : Bool :=
  p.reading == .top && Text.startsWith p.after key && endsWord p.before &&
    Text.colonFollows (p.after.drop key.length)

/-- Does a value end here for good? A comma ends it, and so does a closing bracket without partner,
at which the count of open brackets would fall below zero. -/
def endsValue (p : Spot) : Bool :=
  p.reading == .top && p.after.head?.any fun c => c == ',' || Quoting.closes c

end Spot

/-- The place right behind the comma that ends a value which begins at byte `offset`. -/
def Text.terminator? (offset : Nat) (value : Text) : Option Nat :=
  match (spotsFrom .top none offset value).find? Spot.endsValue with
  | some p => if p.after.head? = some ',' then some (p.offset + 1) else none
  | none => none

def Spot.terminator? (key : Text) (p : Spot) : Option Nat :=
  let gaps := (p.after.drop key.length).takeWhile isGap
  Text.terminator? (p.offset + key.size + Text.size gaps + 1)
    (p.after.drop (key.length + gaps.length + 1))

def Spot.firstTerminator? (key : Text) (spots : List Spot) : Option Nat :=
  (spots.filter (isCandidate key)).findSome? (terminator? key)

/-! ## Places -/

namespace Text

variable {key : Text}

theorem mem_spotsFrom_iff {r : Reading} {b : Option Char} {o : Nat} {t : Text} {p : Spot} :
    p ∈ spotsFrom r b o t ↔ ∃ pre, t = pre ++ p.after ∧ p.after ≠ [] ∧ p.offset = o + pre.size ∧
      p.before = pre.getLast?.or b ∧ p.reading = r.through pre := by
  induction t generalizing r b o with
  | nil =>
    constructor
    · intro h
      cases h
    · rintro ⟨pre, hpre, hne, -⟩
      exact absurd (List.append_eq_nil_iff.1 hpre.symm).2 hne
  | cons c t ih =>
    rw [spotsFrom, List.mem_cons, ih]
    constructor
    · rintro (rfl | ⟨pre, rfl, hne, ho, hb, hr⟩)
      · exact ⟨[], rfl, List.cons_ne_nil c t, rfl, rfl, rfl⟩
      · refine ⟨c :: pre, rfl, hne, ?_, ?_, hr⟩
        · rw [ho, size_cons, Nat.add_assoc]
        · rw [hb, getLast?_cons_or]
    · rintro ⟨pre, ht, hne, ho, hb, hr⟩
      cases pre with
      | nil =>
        obtain ⟨o', b', r', after⟩ := p
        obtain rfl : c :: t = after := ht
        obtain rfl : o' = o := ho
        obtain rfl : b' = b := hb
        obtain rfl : r' = r := hr
        exact Or.inl rfl
      | cons d pre =>
        obtain ⟨rfl, rfl⟩ := List.cons.inj ht
        rw [getLast?_cons_or] at hb
        refine Or.inr ⟨pre, rfl, hne, ?_, hb, hr⟩
        rw [ho, size_cons, Nat.add_assoc]

theorem mem_spots_iff {t : Text} {p : Spot} : p ∈ t.spots ↔
    ∃ pre, t = pre ++ p.after ∧ p.after ≠ [] ∧ p.offset = pre.size ∧ p.before = pre.getLast? ∧
      p.reading = Reading.top.through pre := by
  rw [spots, mem_spotsFrom_iff]
  simp only [Nat.zero_add, Option.or_none]

theorem pairwise_spotsFrom (r : Reading) (b : Option Char) (o : Nat) (t : Text) :
    (spotsFrom r b o t).Pairwise fun p q => p.offset < q.offset := by
  induction t generalizing r b o with
  | nil => exact List.Pairwise.nil
  | cons c t ih =>
    refine List.Pairwise.cons (fun p hp => ?_) (ih _ _ _)
    obtain ⟨pre, -, -, hoffset, -⟩ := mem_spotsFrom_iff.1 hp
    have := c.utf8Size_pos
    show o < p.offset
    omega

/-! ## The candidates are the anchors -/

theorem pairwise_anchorsFrom (hkey : key.isName = true) (q : Quoting) (d : Nat) (b : Option Char)
    (o : Nat) (t : Text) :
    (anchorsFrom key 0 q d b o t).Pairwise fun a a' => a.offset < a'.offset := by
  induction hn : t.length using Nat.strongRecOn generalizing q d b o t with
  | ind n ih =>
  subst hn
  cases t with
  | nil => exact List.Pairwise.nil
  | cons c t =>
    by_cases hanchor : Reading.mk q d = .top ∧ startsWith (c :: t) key = true ∧ endsWord b = true ∧
        colonFollows ((c :: t).drop key.length) = true
    · obtain ⟨htop, hstart, hb, hcolon⟩ := hanchor
      obtain ⟨rfl, rfl⟩ : q = .outside ∧ d = 0 := by simpa [Reading.top] using htop
      obtain ⟨rest, hrest⟩ := startsWith_iff.1 hstart
      rw [hrest, List.drop_left] at hcolon
      have hne := ne_nil_of_isName hkey
      have hlt : rest.length < (c :: t).length := by
        have := List.length_pos_iff.2 hne
        rw [hrest, List.length_append]
        omega
      have hpos : 0 < key.size := by
        obtain ⟨d, k, rfl⟩ := List.exists_cons_of_ne_nil hne
        have := d.utf8Size_pos
        rw [size_cons]
        omega
      rw [hrest, anchorsFrom_anchor hkey hb hcolon]
      refine List.Pairwise.cons (fun a ha => ?_) (ih _ hlt _ _ _ _ rest rfl)
      obtain ⟨pre, -, -, -, -, -, rfl⟩ := (mem_anchorsFrom_iff hkey).1 ha
      show o < o + key.size + Text.size pre
      omega
    · rw [anchorsFrom_cons hanchor]
      exact ih t.length (by simp) _ _ _ _ t rfl

/-- A candidate, spelled out. -/
theorem isCandidate_iff {p : Spot} : p.isCandidate key = true ↔
    p.reading = .top ∧ endsWord p.before = true ∧
      ∃ gaps value, p.after = key ++ (gaps ++ ':' :: value) ∧ ∀ c ∈ gaps, isGap c = true := by
  simp only [Spot.isCandidate, Bool.and_eq_true, beq_iff_eq, startsWith_iff]
  constructor
  · rintro ⟨⟨⟨htop, rest, hrest⟩, hb⟩, hcolon⟩
    rw [hrest, List.drop_left] at hcolon
    obtain ⟨gaps, value, rfl, hgaps⟩ := colonFollows_iff.1 hcolon
    exact ⟨htop, hb, gaps, value, hrest, hgaps⟩
  · rintro ⟨htop, hb, gaps, value, hrest, hgaps⟩
    refine ⟨⟨⟨htop, gaps ++ ':' :: value, hrest⟩, hb⟩, ?_⟩
    rw [hrest, List.drop_left]
    exact colonFollows_iff.2 ⟨gaps, value, rfl, hgaps⟩

theorem anchors_eq_map_spots (hkey : key.isName = true) (args : Text) :
    args.anchors key =
      (args.spots.filter (Spot.isCandidate key)).map fun p => ⟨p.offset, p.after⟩ := by
  have hanchors : (args.anchors key).Pairwise fun a a' => a.offset < a'.offset := by
    rw [anchors, if_neg (by simpa using ne_nil_of_isName hkey)]
    exact pairwise_anchorsFrom hkey _ _ _ _ _
  have hspots : ((args.spots.filter (Spot.isCandidate key)).map fun p =>
      Anchor.mk p.offset p.after).Pairwise fun a a' => a.offset < a'.offset :=
    List.pairwise_map.2 ((pairwise_spotsFrom _ _ _ _).filter _)
  -- both lists ascend, so they are equal if they have the same members
  have : Std.Irrefl fun a a' : Anchor => a.offset < a'.offset := ⟨fun a => Nat.lt_irrefl _⟩
  have : Std.Antisymm fun a a' : Anchor => a.offset < a'.offset :=
    ⟨fun a a' h h' => absurd h (Nat.lt_asymm h')⟩
  refine hanchors.eq_of_mem_iff hspots fun a => ?_
  rw [mem_anchors_iff hkey, List.mem_map]
  constructor
  · rintro ⟨pre, rest, rfl, hcolon, htop, hb, rfl⟩
    refine ⟨⟨pre.size, pre.getLast?, .top, key ++ rest⟩, List.mem_filter.2 ⟨?_, ?_⟩, rfl⟩
    · exact mem_spots_iff.2 ⟨pre, rfl, by simp [ne_nil_of_isName hkey], rfl, rfl, htop.symm⟩
    · obtain ⟨gaps, value, rfl, hgaps⟩ := colonFollows_iff.1 hcolon
      exact isCandidate_iff.2 ⟨rfl, hb, gaps, value, rfl, hgaps⟩
  · rintro ⟨p, hp, rfl⟩
    obtain ⟨hmem, hcandidate⟩ := List.mem_filter.1 hp
    obtain ⟨pre, hargs, -, ho, hb, hr⟩ := mem_spots_iff.1 hmem
    obtain ⟨htop, hword, gaps, value, hafter, hgaps⟩ := isCandidate_iff.1 hcandidate
    refine ⟨pre, gaps ++ ':' :: value, hafter ▸ hargs, colonFollows_iff.2 ⟨gaps, value, rfl, hgaps⟩,
      hr.symm.trans htop, hb ▸ hword, ?_⟩
    rw [ho, hafter]

/-! ## Values and their terminators -/

/-- The end of a value is at the first place that ends values, if that is a comma. -/
theorem valueEnd?_eq_find? (q : Quoting) (d : Nat) (b : Option Char) (o : Nat) (t : Text) :
    valueEnd? q d o t =
      match (spotsFrom ⟨q, d⟩ b o t).find? Spot.endsValue with
      | some p => if p.after.head? = some ',' then some (p.offset + 1) else none
      | none => none := by
  induction t generalizing q d b o with
  | nil => simp [valueEnd?, spotsFrom]
  | cons c t ih =>
    rw [spotsFrom, List.find?_cons]
    rcases valueEnd?_cases q d c with ⟨htop, hc⟩ | ⟨htop, rfl⟩ | hgo
    · have hends : Spot.endsValue ⟨o, b, ⟨q, d⟩, c :: t⟩ = true := by simp [Spot.endsValue, htop, hc]
      have hcomma : c ≠ ',' := by
        rintro rfl
        revert hc
        decide
      obtain ⟨rfl, rfl⟩ : q = .outside ∧ d = 0 := by simpa [Reading.top] using htop
      simp [hends, valueEnd?_closing hc, hcomma]
    · have hends : Spot.endsValue ⟨o, b, ⟨q, d⟩, ',' :: t⟩ = true := by simp [Spot.endsValue, htop]
      obtain ⟨rfl, rfl⟩ : q = .outside ∧ d = 0 := by simpa [Reading.top] using htop
      simp [hends, valueEnd?_comma]
    · have hends : Spot.endsValue ⟨o, b, ⟨q, d⟩, c :: t⟩ = false := by
        rw [Bool.eq_false_iff]
        intro hends
        simp only [Spot.endsValue, Bool.and_eq_true, beq_iff_eq, List.head?_cons, Option.any_some,
          Bool.or_eq_true] at hends
        exact hgo ⟨hends.1, hends.2.symm⟩
      simp only [hends, valueEnd?_cons hgo]
      exact ih _ _ _ _

theorem valueEnd?_eq_terminator? (o : Nat) (t : Text) :
    valueEnd? .outside 0 o t = terminator? o t :=
  valueEnd?_eq_find? .outside 0 none o t

theorem anchorSlot?_eq_terminator? (hkey : key.isName = true) {p : Spot}
    (hp : p.isCandidate key = true) : (Anchor.mk p.offset p.after).slot? = p.terminator? key := by
  obtain ⟨-, -, gaps, value, hafter, hgaps⟩ := isCandidate_iff.1 hp
  have htake : (gaps ++ ':' :: value).takeWhile isGap = gaps := by
    rw [List.takeWhile_append_of_pos hgaps, List.takeWhile_cons_of_neg (by decide), List.append_nil]
  have hdrop : (key ++ (gaps ++ ':' :: value)).drop (key.length + gaps.length + 1) = value := by
    rw [Nat.add_assoc, ← List.drop_drop, List.drop_left, ← List.drop_drop, List.drop_left]
    rfl
  rw [Anchor.slot?, valueEnd?_eq_terminator?, hafter, value_eq hkey hgaps, Spot.terminator?, hafter,
    List.drop_left, htake, hdrop, size_append, ← Nat.add_assoc]

/-- The slot of a name is the terminator of its first candidate that has one. -/
theorem slot?_eq_firstTerminator? (hkey : key.isName = true) (args : Text) :
    args.slot? key = Spot.firstTerminator? key args.spots := by
  rw [slot?, anchors_eq_map_spots hkey, List.findSome?_map, Spot.firstTerminator?,
    ← List.head?_filterMap, ← List.head?_filterMap]
  congr 1
  refine List.filterMap_congr fun p hp => ?_
  exact anchorSlot?_eq_terminator? hkey (List.mem_filter.1 hp).2

end Text

/-- **A rule adds behind the comma that ends the value of its first candidate with a terminator.**
Where no candidate has one, the fault names the anchor and the key of the rule. -/
theorem slot_eq_first_terminated {t args : Text} {call : Call} {rule : Rule}
    (haccepted : rule.refusal? = none) (hargs : call.args? t = some args) :
    slot t call rule =
      match Spot.firstTerminator? rule.anchor args.spots with
      | some place => .ok (call.argsStart + place)
      | none => .error (.anchorMissing rule.anchor rule.key) := by
  have hread : argsOf t call = .ok args := Fault.ofPlace_eq_ok_iff.2 hargs
  have hslot := Filler.slot_of_argsOf hread rule
  rw [Text.slot?_eq_firstTerminator? (Rule.refusal?_eq_none_iff.1 haccepted).2.1] at hslot
  exact hslot

/-- The first `é` is quoted, the second nested, and the value of the third ends with a bracket. The
value of the fourth has quoted and nested commas. -/
theorem slot_eq_first_terminated_sample :
    let t : Text := "P('\\'é: 0,', (é: 1,), é: 2), é\t: [3, ',]'], 4)".toList
    let call : Call := ⟨0, 2, 49⟩
    let args : Text := "'\\'é: 0,', (é: 1,), é: 2), é\t: [3, ',]'], 4".toList
    let rule : Rule := ⟨['k'], ['é'], ['1']⟩
    rule.refusal? = none ∧ call.args? t = some args ∧ slot t call rule = .ok 47 ∧
    slot t call rule =
      match Spot.firstTerminator? rule.anchor args.spots with
      | some place => .ok (call.argsStart + place)
      | none => .error (.anchorMissing rule.anchor rule.key) := by
  intro t call args rule
  have haccepted : rule.refusal? = none := by decide +kernel
  have hargs : call.args? t = some args := by decide +kernel
  exact ⟨haccepted, hargs, by decide +kernel, slot_eq_first_terminated haccepted hargs⟩

/-! ## Splitting at a comma -/

def Spot.slot? (key : Text) (p : Spot) : Option Nat :=
  if p.isCandidate key then p.terminator? key else none

namespace Text

variable {key : Text}

def slotFrom? (key : Text) (r : Reading) (before : Option Char) (offset : Nat) (t : Text) :
    Option Nat :=
  Spot.firstTerminator? key (spotsFrom r before offset t)

theorem slotFrom?_cons (key : Text) (r : Reading) (b : Option Char) (o : Nat) (c : Char) (t : Text) :
    slotFrom? key r b o (c :: t) = (Spot.slot? key ⟨o, b, r, c :: t⟩).or
      (slotFrom? key (r.next c) (some c) (o + c.utf8Size) t) := by
  rw [slotFrom?, Spot.firstTerminator?, spotsFrom, List.filter_cons, Spot.slot?]
  split
  · rw [List.findSome?_cons]
    cases Spot.terminator? key ⟨o, b, r, c :: t⟩ <;> rfl
  · rfl

theorem slotFrom?_of_spot {r : Reading} {b : Option Char} {o place : Nat} {t : Text} (ht : t ≠ [])
    (h : Spot.slot? key ⟨o, b, r, t⟩ = some place) : slotFrom? key r b o t = some place := by
  obtain ⟨c, t, rfl⟩ := List.exists_cons_of_ne_nil ht
  rw [slotFrom?_cons, h, Option.some_or]

theorem slot?_eq_slotFrom? (hkey : key.isName = true) (args : Text) :
    args.slot? key = slotFrom? key .top none 0 args :=
  slot?_eq_firstTerminator? hkey args

theorem spotSlot?_of_anchor (hkey : key.isName = true) {gaps : Text}
    (hgaps : ∀ c ∈ gaps, isGap c = true) {b : Option Char} (hb : endsWord b = true) (o : Nat)
    (value : Text) : Spot.slot? key ⟨o, b, .top, key ++ (gaps ++ ':' :: value)⟩ =
      valueEnd? .outside 0 (o + (key ++ gaps).size + 1) value := by
  have hcandidate : Spot.isCandidate key ⟨o, b, .top, key ++ (gaps ++ ':' :: value)⟩ = true :=
    isCandidate_iff.2 ⟨rfl, hb, gaps, value, rfl, hgaps⟩
  rw [Spot.slot?, if_pos hcandidate, ← anchorSlot?_eq_terminator? hkey hcandidate, Anchor.slot?,
    value_eq hkey hgaps]

theorem spotSlot?_cons_of_not_isNameChar (hkey : key.isName = true) {c : Char}
    (hc : isNameChar c = false) (o : Nat) (b : Option Char) (r : Reading) (t : Text) :
    Spot.slot? key ⟨o, b, r, c :: t⟩ = none := by
  rw [Spot.slot?, if_neg]
  intro hcandidate
  obtain ⟨-, -, gaps, value, hafter, -⟩ := isCandidate_iff.1 hcandidate
  obtain ⟨d, k, rfl⟩ := List.exists_cons_of_ne_nil (ne_nil_of_isName hkey)
  obtain rfl : c = d := (List.cons.inj hafter).1
  exact not_mem_of_isName hkey hc List.mem_cons_self

theorem slotFrom?_offset (hkey : key.isName = true) {b b' : Option Char}
    (hb : endsWord b = endsWord b') (r : Reading) (o n : Nat) (t : Text) :
    slotFrom? key r b (o + n) t = (slotFrom? key r b' o t).map (· + n) := by
  induction t generalizing r b b' o with
  | nil => rfl
  | cons c t ih =>
    have hspot : Spot.slot? key ⟨o + n, b, r, c :: t⟩ =
        (Spot.slot? key ⟨o, b', r, c :: t⟩).map (· + n) := by
      by_cases hc : Spot.isCandidate key ⟨o + n, b, r, c :: t⟩ = true
      · obtain ⟨htop, hword, gaps, value, hafter, hgaps⟩ := isCandidate_iff.1 hc
        simp only at htop hword hafter
        rw [htop, hafter, spotSlot?_of_anchor hkey hgaps hword,
          spotSlot?_of_anchor hkey hgaps (hb ▸ hword), ← valueEnd?_offset]
        congr 1
        omega
      · have hc' : ¬ Spot.isCandidate key ⟨o, b', r, c :: t⟩ = true := by
          intro hc'
          obtain ⟨htop, hword, hanchor⟩ := isCandidate_iff.1 hc'
          exact hc (isCandidate_iff.2 ⟨htop, hb.trans hword, hanchor⟩)
        rw [Spot.slot?, Spot.slot?, if_neg hc, if_neg hc', Option.map_none]
    rw [slotFrom?_cons, slotFrom?_cons, hspot, Nat.add_right_comm, ih rfl, Option.map_or]

/-- A candidate before a comma has its colon before it. -/
theorem isCandidate_append_comma_iff (hkey : key.isName = true) {o : Nat} {b : Option Char}
    {r : Reading} {u y : Text} : Spot.isCandidate key ⟨o, b, r, u ++ ',' :: y⟩ = true ↔
      r = .top ∧ endsWord b = true ∧
        ∃ gaps value, u = key ++ (gaps ++ ':' :: value) ∧ ∀ c ∈ gaps, isGap c = true := by
  rw [isCandidate_iff]
  refine and_congr_right fun _ => and_congr_right fun _ => ?_
  constructor
  · rintro ⟨gaps, value, hafter, hgaps⟩
    simp only at hafter
    rw [← List.append_assoc] at hafter
    rcases append_cons_eq_append_cons (by decide) hafter with ⟨mid, hmid, -⟩ | ⟨mid, rfl, -⟩
    · refine absurd ?_ (comma_notMem_append_gaps hkey hgaps)
      rw [hmid]
      exact List.mem_append_right _ List.mem_cons_self
    · exact ⟨gaps, mid, List.append_assoc _ _ _, hgaps⟩
  · rintro ⟨gaps, value, rfl, hgaps⟩
    exact ⟨gaps, value ++ ',' :: y, by simp, hgaps⟩

theorem spotSlot?_append_comma (hkey : key.isName = true) {r : Reading} {u : Text}
    (htop : r.through u = .top) (o : Nat) (b : Option Char) (y : Text) :
    Spot.slot? key ⟨o, b, r, u ++ ',' :: y⟩ = Spot.slot? key ⟨o, b, r, u ++ [',']⟩ := by
  by_cases hc : Spot.isCandidate key ⟨o, b, r, u ++ ',' :: y⟩ = true
  · obtain ⟨rfl, hb, gaps, value, rfl, hgaps⟩ := (isCandidate_append_comma_iff hkey).1 hc
    have hvalue : Reading.top.through value = .top := by
      rwa [← List.nil_append (key ++ _), through_anchored hkey rfl hgaps] at htop
    simp only [List.append_assoc, List.cons_append]
    rw [spotSlot?_of_anchor hkey hgaps hb, spotSlot?_of_anchor hkey hgaps hb]
    exact valueEnd?_append_comma hvalue _ _ _
  · have hc' : ¬ Spot.isCandidate key ⟨o, b, r, u ++ [',']⟩ = true := by
      rwa [isCandidate_append_comma_iff hkey] at hc ⊢
    rw [Spot.slot?, Spot.slot?, if_neg hc, if_neg hc']

theorem slotFrom?_append_comma (hkey : key.isName = true) {r : Reading} {x : Text}
    (htop : r.through x = .top) (b : Option Char) (o : Nat) (y : Text) :
    slotFrom? key r b o (x ++ ',' :: y) = (slotFrom? key r b o (x ++ [','])).or
      (slotFrom? key .top (some ',') (o + x.size + 1) y) := by
  induction x generalizing r b o with
  | nil =>
    obtain rfl : r = .top := htop
    have hcomma := fun t => spotSlot?_cons_of_not_isNameChar hkey isNameChar_comma o b .top t
    rw [List.nil_append, List.nil_append, slotFrom?_cons, slotFrom?_cons, hcomma, hcomma]
    rfl
  | cons c x ih =>
    rw [List.cons_append, List.cons_append, slotFrom?_cons, slotFrom?_cons, ← List.cons_append,
      ← List.cons_append, spotSlot?_append_comma hkey htop, ih htop, Option.or_assoc, size_cons,
      ← Nat.add_assoc]

/-- At a comma at the top, a list splits into two that are searched one after the other. -/
theorem slot?_append_comma (hkey : key.isName = true) {x : Text}
    (htop : Reading.top.through x = .top) (y : Text) :
    (x ++ ',' :: y).slot? key =
      ((x ++ [',']).slot? key).or ((y.slot? key).map (· + (x.size + 1))) := by
  have hcomma : endsWord (some ',') = endsWord none := rfl
  rw [slot?_eq_slotFrom? hkey, slot?_eq_slotFrom? hkey, slot?_eq_slotFrom? hkey,
    slotFrom?_append_comma hkey htop, Nat.add_assoc, slotFrom?_offset hkey hcomma]

/-- Text put in at the top, behind a comma, moves the slots behind it. It must not have a slot
itself. -/
theorem slot?_insert_moved (hkey : key.isName = true) {x added : Text}
    (htop : Reading.top.through x = .top) (hadded : Reading.top.through added = .top)
    (hnone : (added ++ [',']).slot? key = none) (y : Text) :
    (x ++ ',' :: (added ++ ',' :: y)).slot? key =
      ((x ++ ',' :: y).slot? key).map (movedBy (x.size + 2) (added.size + 1)) := by
  rw [slot?_append_comma hkey htop, slot?_append_comma hkey htop y, slot?_append_comma hkey hadded,
    hnone, Option.none_or, Option.map_or, Option.map_map]
  congr 1
  · cases hplace : (x ++ [',']).slot? key with
    | none => rfl
    | some place =>
      obtain ⟨u, w, heq, rfl, -⟩ := slot?_eq_some hkey hplace
      have hsize := congrArg Text.size heq
      simp only [size_append, size_cons, size_nil] at hsize
      rw [Option.map_some, movedBy_of_lt (by omega)]
  · cases hplace : y.slot? key with
    | none => rfl
    | some place =>
      obtain ⟨u, w, -, rfl, -⟩ := slot?_eq_some hkey hplace
      have hmoved : movedBy (x.size + 2) (added.size + 1) (u.size + 1 + (x.size + 1)) =
          u.size + 1 + (x.size + 1) + (added.size + 1) := movedBy_of_le (by omega)
      simp only [Option.map_some, Function.comp, hmoved]
      exact congrArg some (by omega)

end Text

end ArgFill
