import ArgFill.Proofs.Names
import ArgFill.Proofs.Results
import ArgFill.Proofs.RuleBook

/-!
# Which rule books there are

`Rule.Valid` and `Profile.Valid` say, character by character, what a rule and a profile must be like.
Of a list of profiles that are not all so, one mistake is told: that of the first profile that has
one, and there the first one in the order of `Profile.Wrong`, which goes on to the first rule that is
not valid, and there to the order of `Rule.Wrong`.

Each checker is matched with its pair of predicates: it accepts exactly what is valid, and what it
tells otherwise is exactly what is wrong (`Rule.refusal?_eq_some_iff`, `constructRefusal?_eq_some_iff`,
`Profile.filler_eq_ok_iff`, `Profile.filler_eq_error_iff`). `RuleBook.ofProfiles_exact` puts them
together over whole lists.
-/

namespace ArgFill

/-! ## The first of a list -/

/-- The first item of a list with a property. -/
def IsFirst {α : Type} (p : α → Prop) (l : List α) (a : α) : Prop :=
  ∃ before behind, l = before ++ a :: behind ∧ (∀ b ∈ before, ¬ p b) ∧ p a

theorem find?_eq_some_iff_isFirst {α : Type} {test : α → Bool} {p : α → Prop}
    (htest : ∀ a, test a = true ↔ p a) {l : List α} {a : α} :
    l.find? test = some a ↔ IsFirst p l a := by
  rw [List.find?_eq_some_iff_append, IsFirst]
  simp only [htest, Bool.not_eq_true', ← Bool.not_eq_true]
  constructor
  · rintro ⟨ha, before, behind, hl, hbefore⟩
    exact ⟨before, behind, hl, hbefore, ha⟩
  · rintro ⟨before, behind, hl, hbefore, ha⟩
    exact ⟨ha, before, behind, hl, hbefore⟩

/-! ## Rules -/

namespace Rule

def Blank (rule : Rule) (field : Field) : Prop := ∀ c ∈ rule.get field, isBlankChar c = true

def Misspelt (rule : Rule) (field : Field) : Prop := ∃ c ∈ rule.get field, isNameChar c = false

structure Valid (rule : Rule) : Prop where
  filled : ∀ field, ¬ rule.Blank field
  key : ∀ c ∈ rule.key, isNameChar c = true
  anchor : ∀ c ∈ rule.anchor, isNameChar c = true

/-- What is told about a rule that is not valid. A blank field is told before a misspelt key. -/
inductive Wrong (rule : Rule) : Refusal → Prop
  | blank {field : Field} (h : IsFirst rule.Blank [.key, .anchor, .literal] field) :
      Wrong rule (.blankField field)
  | malformed {field : Field} (hfilled : ∀ field, ¬ rule.Blank field)
      (h : IsFirst rule.Misspelt [.key, .anchor] field) :
      Wrong rule (.malformedKey field (rule.get field))

variable {rule : Rule}

theorem isBlank_get_iff (field : Field) : (rule.get field).isBlank = true ↔ rule.Blank field :=
  List.all_eq_true

theorem isName_get_iff {field : Field} (hfilled : ¬ rule.Blank field) :
    (rule.get field).isName = true ↔ ∀ c ∈ rule.get field, isNameChar c = true := by
  have hne : rule.get field ≠ [] := by
    intro hnil
    refine hfilled fun c hc => ?_
    rw [hnil] at hc
    cases hc
  simp [Text.isName, hne]

theorem not_isName_get_iff (hfilled : ∀ field, ¬ rule.Blank field) (field : Field) :
    (!(rule.get field).isName) = true ↔ rule.Misspelt field := by
  rw [Bool.not_eq_true', ← Bool.not_eq_true, isName_get_iff (hfilled field)]
  simp [Misspelt]

theorem forall_not_blank_iff : (∀ field, ¬ rule.Blank field) ↔
    ([Field.key, .anchor, .literal].find? fun field => (rule.get field).isBlank) = none := by
  simp only [List.find?_eq_none, isBlank_get_iff]
  refine ⟨fun h field _ => h field, fun h field => h field ?_⟩
  cases field <;> decide

theorem refusal?_eq_none_iff_valid : rule.refusal? = none ↔ rule.Valid := by
  rw [refusal?_eq_none_iff]
  constructor
  · rintro ⟨hkey, hanchor, hliteral⟩
    refine ⟨fun field => ?_, fun c => Text.isNameChar_of_mem hkey,
      fun c => Text.isNameChar_of_mem hanchor⟩
    rw [← isBlank_get_iff, Bool.not_eq_true]
    cases field with
    | key => exact Text.isBlank_eq_false_of_isName hkey
    | anchor => exact Text.isBlank_eq_false_of_isName hanchor
    | literal => exact hliteral
  · intro h
    have hkey := (isName_get_iff (h.filled .key)).2 h.key
    have hanchor := (isName_get_iff (h.filled .anchor)).2 h.anchor
    refine ⟨hkey, hanchor, ?_⟩
    rw [← Bool.not_eq_true]
    exact fun hblank => h.filled .literal ((isBlank_get_iff .literal).1 hblank)

/-- What is told about a rule is what is wrong with it. -/
theorem refusal?_eq_some_iff {why : Refusal} : rule.refusal? = some why ↔ rule.Wrong why := by
  unfold refusal?
  cases hblank : [Field.key, .anchor, .literal].find? fun field => (rule.get field).isBlank with
  | some field =>
    have hfirst := (find?_eq_some_iff_isFirst isBlank_get_iff).1 hblank
    constructor
    · intro h
      obtain rfl := Option.some.inj h
      exact .blank hfirst
    · rintro (h | ⟨hfilled, -⟩)
      · rw [(find?_eq_some_iff_isFirst isBlank_get_iff).2 h] at hblank
        rw [Option.some.inj hblank]
      · obtain ⟨_, _, -, -, hfield⟩ := hfirst
        exact absurd hfield (hfilled field)
  | none =>
    have hfilled := forall_not_blank_iff.2 hblank
    simp only [Option.map_eq_some_iff,
      find?_eq_some_iff_isFirst (not_isName_get_iff hfilled)]
    constructor
    · rintro ⟨field, h, rfl⟩
      exact .malformed hfilled h
    · rintro (h | ⟨-, h⟩)
      · rw [(find?_eq_some_iff_isFirst isBlank_get_iff).2 h] at hblank
        cases hblank
      · exact ⟨_, h, rfl⟩

/-- A blank literal is told before a key that is no name. -/
example : (⟨"k y".toList, ['a'], " \t".toList⟩ : Rule).refusal? = some (.blankField .literal) := by
  decide

/-- Of several rules, the first one that is not valid is told. -/
theorem findSome?_refusal?_eq_some_iff {rules : List Rule} {why : Refusal} :
    rules.findSome? refusal? = some why ↔
      ∃ rule, IsFirst (fun rule => ¬ rule.Valid) rules rule ∧ rule.Wrong why := by
  simp only [List.findSome?_eq_some_iff, IsFirst, refusal?_eq_some_iff, refusal?_eq_none_iff_valid,
    not_not]
  constructor
  · rintro ⟨before, rule, behind, hrules, hwrong, hbefore⟩
    refine ⟨rule, ⟨before, behind, hrules, hbefore, fun hvalid => ?_⟩, hwrong⟩
    rw [← refusal?_eq_none_iff_valid, refusal?_eq_some_iff.2 hwrong] at hvalid
    cases hvalid
  · rintro ⟨rule, ⟨before, behind, hrules, hbefore, -⟩, hwrong⟩
    exact ⟨before, rule, behind, hrules, hwrong, hbefore⟩

end Rule

/-! ## Constructs -/

structure ConstructValid (name : Text) : Prop where
  ne_nil : name ≠ []
  chars : ∀ c ∈ name, isNameChar c = true ∨ c = '.'

inductive ConstructWrong (name : Text) : Refusal → Prop
  | empty (h : name = []) : ConstructWrong name .emptyConstruct
  | malformed {c : Char} (hc : c ∈ name) (hname : isNameChar c = false) (hdot : c ≠ '.') :
      ConstructWrong name (.malformedConstruct name)

variable {name : Text} {why : Refusal}

theorem constructValid_iff : ConstructValid name ↔ name.isQualifiedName = true := by
  rw [Text.isQualifiedName]
  simp only [Bool.and_eq_true, List.all_eq_true, Bool.or_eq_true, beq_iff_eq, Bool.not_eq_true',
    List.isEmpty_eq_false_iff]
  exact ⟨fun h => ⟨h.ne_nil, h.chars⟩, fun h => ⟨h.1, h.2⟩⟩

theorem constructRefusal?_eq_none_iff : constructRefusal? name = none ↔ ConstructValid name := by
  rw [constructValid_iff]
  refine ⟨isQualifiedName_of_constructRefusal?, fun h => ?_⟩
  have hempty : ¬ name.isEmpty = true := by simpa using Text.ne_nil_of_isQualifiedName h
  rw [constructRefusal?, if_neg hempty, if_pos h]

theorem ConstructWrong.refusal? (h : ConstructWrong name why) :
    constructRefusal? name = some why := by
  rcases h with rfl | ⟨hc, hname, hdot⟩
  · rfl
  · have hempty : ¬ name.isEmpty = true := by simpa using List.ne_nil_of_mem hc
    have hnot : ¬ name.isQualifiedName = true := by
      intro hqualified
      rcases (constructValid_iff.2 hqualified).chars _ hc with hyes | hyes
      · rw [hname] at hyes
        cases hyes
      · exact hdot hyes
    rw [constructRefusal?, if_neg hempty, if_neg hnot]

theorem exists_constructWrong (h : ¬ ConstructValid name) : ∃ why, ConstructWrong name why := by
  by_contra hnone
  push Not at hnone
  refine h ⟨fun hnil => hnone _ (.empty hnil), fun c hc => ?_⟩
  by_contra hwrong
  push Not at hwrong
  exact hnone _ (.malformed hc (by simpa using hwrong.1) hwrong.2)

theorem constructRefusal?_eq_some_iff :
    constructRefusal? name = some why ↔ ConstructWrong name why := by
  refine ⟨fun h => ?_, ConstructWrong.refusal?⟩
  have hnot : ¬ ConstructValid name := by
    rw [← constructRefusal?_eq_none_iff, h]
    exact nofun
  obtain ⟨why', hwrong⟩ := exists_constructWrong hnot
  obtain rfl := Option.some.inj (h.symm.trans hwrong.refusal?)
  exact hwrong

/-! ## Profiles -/

namespace Profile

structure Valid (p : Profile) : Prop where
  differ : p.brackets.opening ≠ p.brackets.closing
  construct : ConstructValid p.construct
  rules : ∀ rule ∈ p.rules, rule.Valid

/-- What is told about a profile that is not valid: brackets that are the same, else the construct,
else the first rule that is not valid. -/
inductive Wrong (p : Profile) : BookFault → Prop
  | sameBrackets (h : p.brackets.opening = p.brackets.closing) :
      Wrong p (.sameBrackets p.construct)
  | construct {why : Refusal} (hdiffer : p.brackets.opening ≠ p.brackets.closing)
      (h : ConstructWrong p.construct why) : Wrong p (.invalid p.construct (.refused why))
  | rule {rule : Rule} {why : Refusal} (hdiffer : p.brackets.opening ≠ p.brackets.closing)
      (hconstruct : ConstructValid p.construct)
      (hfirst : IsFirst (fun rule => ¬ rule.Valid) p.rules rule) (h : rule.Wrong why) :
      Wrong p (.invalid p.construct (.refused why))

variable {p : Profile}

theorem valid_iff : p.Valid ↔
    p.brackets.opening ≠ p.brackets.closing ∧ p.described.refusal? = none := by
  rw [Filler.refusal?, Option.or_eq_none_iff, List.findSome?_eq_none_iff]
  simp only [Rule.refusal?_eq_none_iff_valid, constructRefusal?_eq_none_iff, described]
  exact ⟨fun h => ⟨h.differ, h.construct, h.rules⟩, fun ⟨hdiffer, hconstruct, hrules⟩ =>
    ⟨hdiffer, hconstruct, hrules⟩⟩

theorem wrong_iff {fault : BookFault} : p.Wrong fault ↔
    p.brackets.opening = p.brackets.closing ∧ fault = .sameBrackets p.construct ∨
      p.brackets.opening ≠ p.brackets.closing ∧
        ∃ why, p.described.refusal? = some why ∧ fault = .invalid p.construct (.refused why) := by
  simp only [Filler.refusal?, Option.or_eq_some_iff, constructRefusal?_eq_some_iff,
    constructRefusal?_eq_none_iff, Rule.findSome?_refusal?_eq_some_iff, described]
  constructor
  · rintro (h | ⟨hdiffer, h⟩ | ⟨hdiffer, hconstruct, hfirst, h⟩)
    · exact Or.inl ⟨h, rfl⟩
    · exact Or.inr ⟨hdiffer, _, Or.inl h, rfl⟩
    · exact Or.inr ⟨hdiffer, _, Or.inr ⟨hconstruct, _, hfirst, h⟩, rfl⟩
  · rintro (⟨h, rfl⟩ | ⟨hdiffer, why, h | ⟨hconstruct, rule, hfirst, h⟩, rfl⟩)
    · exact .sameBrackets h
    · exact .construct hdiffer h
    · exact .rule hdiffer hconstruct hfirst h

theorem filler_eq_ok_iff {filler : Filler} :
    p.filler = .ok filler ↔ p.Valid ∧ p.described = filler := by
  rw [filler_eq, valid_iff]
  split
  · next hsame => simp [hsame]
  · next hdiffer => cases p.described.refusal? <;> simp [hdiffer]

theorem filler_eq_error_iff {fault : BookFault} : p.filler = .error fault ↔ p.Wrong fault := by
  rw [filler_eq, wrong_iff]
  split
  · next hsame => simp [hsame, eq_comm]
  · next hdiffer => cases p.described.refusal? <;> simp [hdiffer, eq_comm]

theorem Wrong.not_valid {fault : BookFault} (h : p.Wrong fault) : ¬ p.Valid := by
  intro hvalid
  have hok := filler_eq_ok_iff.2 ⟨hvalid, rfl⟩
  rw [filler_eq_error_iff.2 h] at hok
  cases hok

end Profile

namespace RuleBook

theorem forall₂_filler_iff {profiles : List Profile} {fillers : List Filler} :
    List.Forall₂ (fun p filler => p.filler = .ok filler) profiles fillers ↔
      (∀ p ∈ profiles, p.Valid) ∧ profiles.map Profile.described = fillers := by
  simp only [Profile.filler_eq_ok_iff]
  rw [List.forall₂_and_left, ← List.forall₂_eq_eq_eq, List.forall₂_map_left_iff]

/-- **Rule books are of valid profiles.** There is a rule book of a list of profiles exactly if all of
them are valid, and its fillers are what they describe, in their order. Otherwise what is wrong with
the first one that is not valid is told. -/
theorem ofProfiles_exact (profiles : List Profile) :
    (∀ book, ofProfiles profiles = .ok book ↔
      (∀ p ∈ profiles, p.Valid) ∧ book.fillers = profiles.map Profile.described) ∧
    ∀ fault, ofProfiles profiles = .error fault ↔
      ∃ p, IsFirst (fun p => ¬ p.Valid) profiles p ∧ p.Wrong fault := by
  constructor
  · intro book
    rw [ofProfiles_eq_ok_iff, mapM_eq_ok_iff, forall₂_filler_iff, eq_comm (a := book.fillers)]
  · intro fault
    rw [ofProfiles_eq_error_iff, mapM_eq_error_iff]
    simp only [Profile.filler_eq_error_iff, forall₂_filler_iff]
    constructor
    · rintro ⟨before, p, behind, _, hprofiles, ⟨hbefore, -⟩, hwrong⟩
      refine ⟨p, ⟨before, behind, hprofiles, fun q hq => ?_, hwrong.not_valid⟩, hwrong⟩
      exact not_not_intro (hbefore q hq)
    · rintro ⟨p, ⟨before, behind, hprofiles, hbefore, -⟩, hwrong⟩
      exact ⟨before, p, behind, _, hprofiles, ⟨fun q hq => not_not.1 (hbefore q hq), rfl⟩, hwrong⟩

/-- The second of three profiles is the first with a mistake, and its construct comes before its
rule. -/
example : ofProfiles [⟨['P'], .none, .round, [⟨['k'], ['a'], ['1']⟩]⟩,
    ⟨"P q".toList, .none, .round, [⟨[], ['a'], ['1']⟩]⟩, ⟨['Q'], .none, ⟨'|', '|'⟩, []⟩] =
      .error (.invalid "P q".toList (.refused (.malformedConstruct "P q".toList))) := by
  decide +kernel

end RuleBook

end ArgFill
