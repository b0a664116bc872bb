import ArgFill.Proofs.KeyPlaces
import ArgFill.Proofs.Search

/-!
# Where names begin

Names are made of letters and numbers of any script, `_` and `$` (`isNameChar`). A search takes a
place for the beginning of a name unless a word character is before it, and those are the ASCII ones
among the characters of names (`isWordChar_iff`).

* `FoundAt` : the places that the searches find;
* `FoundAt.le_toNat` : so a character of names before such a place is beyond ASCII;
* `found_behind` : and behind each of these a name is found, although it is the tail of a longer one;
* `found_in_name` : a call, an anchor and a key that are the tails of longer names.
-/

namespace ArgFill

def Text.Before (t : Text) (place : Nat) (c : Char) : Prop :=
  ∃ front rest, t = front ++ c :: rest ∧ place = front.size + c.utf8Size

/-- The places that are found in a text: where a located call begins, where an anchor of the key
stands, and where the key stands as presence sees it. -/
inductive FoundAt (target : Target) (key t : Text) : Nat → Prop
  | call {call : Call} (h : .ok call ∈ target.calls t) : FoundAt target key t call.start
  | anchor {a : Anchor} (h : a ∈ t.anchors key) : FoundAt target key t a.offset
  | key {o : Occurrence} (h : o ∈ t.occurrences key) (hisKey : o.isKey = true) :
      FoundAt target key t o.offset

variable {target : Target} {key t : Text} {place : Nat} {c : Char}

/-! ## Before a place that is found -/

theorem Text.KeyAt.exists_endsWord (h : t.KeyAt key place) :
    ∃ front rest, t = front ++ rest ∧ front.size = place ∧ endsWord front.getLast? = true := by
  obtain ⟨front, rest, ht, hplace, hb, -⟩ := Text.keyAt_iff.1 h
  exact ⟨front, _, ht, hplace.symm, hb⟩

theorem FoundAt.exists_endsWord (hkey : key.isName = true) (h : FoundAt target key t place) :
    ∃ front rest, t = front ++ rest ∧ front.size = place ∧ endsWord front.getLast? = true := by
  cases h with
  | call h =>
    have hfound := Target.mem_found_of_mem_calls h
    obtain ⟨o, ho, hcall⟩ := Target.exists_occurrence_of_mem_found hfound
    obtain ⟨front, ht, hoffset, hbefore⟩ := Text.mem_occurrencesFrom ho
    obtain ⟨hb, -, -⟩ := Target.exists_of_opensAt (Target.opensAt_of_callAt? hcall)
    obtain ⟨-, -, -, -, -, -, -, hstart, -, -⟩ := Target.exists_of_callAt?_eq_ok hcall
    rw [hbefore, Option.or_none] at hb
    rw [List.append_assoc] at ht
    exact ⟨front, _, ht, by omega, hb⟩
  | anchor h => exact (Text.keyAt_of_mem_anchors hkey h).exists_endsWord
  | key h hisKey => exact (Text.keyAt_of_isKey h hisKey).exists_endsWord

/-- A character of names before a place that is found is beyond ASCII. -/
theorem FoundAt.le_toNat (hkey : key.isName = true) (h : FoundAt target key t place)
    (hbefore : t.Before place c) (hc : isNameChar c = true) : 128 ≤ c.toNat := by
  obtain ⟨front, rest, rfl, rfl, hb⟩ := h.exists_endsWord hkey
  obtain ⟨front', rest', ht, hsize⟩ := hbefore
  rw [List.append_cons] at ht
  obtain ⟨rfl, -⟩ := Text.append_inj_of_size_eq ht (by simpa using hsize)
  have hword : isWordChar c = false := Text.endsWord_iff.1 hb c List.getLast?_concat
  by_contra hlt
  rw [isWordChar_iff.2 ⟨hc, Nat.not_le.1 hlt⟩] at hword
  cases hword

/-! ## Behind a character beyond ASCII -/

section

variable (hc : 128 ≤ c.toNat) (front rest : Text)

include hc

theorem isWordChar_eq_false_of_le : isWordChar c = false := by
  cases hword : isWordChar c with
  | false => rfl
  | true => exact absurd (toNat_lt_of_isWordChar hword) (Nat.not_lt.2 hc)

theorem endsWord_behind : endsWord (front ++ [c]).getLast? = true := by
  rw [List.getLast?_concat, endsWord, isWordChar_eq_false_of_le hc]
  rfl

theorem keyAt_behind (hcolon : rest.colonFollows = true) :
    (front ++ c :: (key ++ rest)).KeyAt key (front.size + c.utf8Size) :=
  Text.keyAt_iff.2 ⟨front ++ [c], rest, by simp, by simp, endsWord_behind hc front, hcolon⟩

theorem exists_anchor_behind (hkey : key.isName = true) (hname : isNameChar c = true)
    (hcolon : rest.colonFollows = true) (htop : Reading.top.through front = .top) :
    ∃ a ∈ Text.anchors (front ++ c :: (key ++ rest)) key, a.offset = front.size + c.utf8Size := by
  refine ⟨⟨Text.size (front ++ [c]), key ++ rest⟩, (Text.mem_anchors_iff hkey).2 ?_, by simp⟩
  refine ⟨front ++ [c], rest, by simp, hcolon, ?_, endsWord_behind hc front, rfl⟩
  rw [Reading.through_append, htop]
  exact Reading.through_of_forall_passes (by simpa using Reading.passes_of_isNameChar hname) 0

theorem exists_call_behind (hne : target.construct ≠ [])
    (hword : ∀ d ∈ target.construct, isWordChar d = true) {blanks : Text}
    (hblanks : ∀ d ∈ blanks, isBlankChar d = true)
    (hopen : isBlankChar target.brackets.opening = false) {calls : List Call}
    (hlocate : target.locate (front ++ c :: (target.construct ++
      (blanks ++ target.brackets.opening :: rest))) = .ok calls) :
    ∃ call ∈ calls, call.start = front.size + c.utf8Size := by
  have hsite : target.IsSite (front ++ c :: (target.construct ++
      (blanks ++ target.brackets.opening :: rest)))
      ⟨(front ++ [c]).size, (front ++ [c] ++ target.construct ++ blanks).size, rest⟩ :=
    ⟨front ++ [c], blanks, by simp, endsWord_behind hc front, hblanks, hopen, rfl, rfl⟩
  have hmem := List.mem_map_of_mem (f := target.callOf) ((Target.mem_sites_iff hne hword).2 hsite)
  rw [← Target.found_eq_map_sites hne, Target.locate_eq_ok_iff.1 hlocate] at hmem
  obtain ⟨call, hcall, hok⟩ := List.mem_map.1 hmem
  have hdiffer := Target.differ_of_mem_locate hlocate hcall
  obtain ⟨inner, -, rfl⟩ := (Target.callOf_eq_ok_iff hdiffer).1 hok.symm
  exact ⟨_, hcall, by simp⟩

end

/-- **A name is found behind a character of names exactly where that is beyond ASCII.** Such a
character is before no place that is found in a text unless it is beyond ASCII. Behind each of
these, whatever the text before, a key is found as an anchor where reading is at the top, a key of
word characters is present, and a construct of word characters is called. -/
theorem found_behind (hconstruct : constructRefusal? target.construct = none)
    (hkey : key.isName = true) :
    (∀ (t : Text) (place : Nat) (c : Char), FoundAt target key t place → t.Before place c →
      isNameChar c = true → 128 ≤ c.toNat) ∧
    ∀ (c : Char) (front rest : Text), isNameChar c = true → 128 ≤ c.toNat →
      (rest.colonFollows = true → Reading.top.through front = .top →
        ∃ a ∈ Text.anchors (front ++ c :: (key ++ rest)) key, a.offset = front.size + c.utf8Size) ∧
      (rest.colonFollows = true → (∀ d ∈ key, isWordChar d = true) →
        ∃ o ∈ Text.occurrences (front ++ c :: (key ++ rest)) key, o.isKey = true ∧
          o.offset = front.size + c.utf8Size) ∧
      ∀ (blanks : Text) (calls : List Call), (∀ d ∈ target.construct, isWordChar d = true) →
        (∀ d ∈ blanks, isBlankChar d = true) → isBlankChar target.brackets.opening = false →
        target.locate (front ++ c :: (target.construct ++
          (blanks ++ target.brackets.opening :: rest))) = .ok calls →
        ∃ call ∈ calls, call.start = front.size + c.utf8Size := by
  refine ⟨fun t place c h hbefore hc => h.le_toNat hkey hbefore hc, ?_⟩
  intro c front rest hname hc
  refine ⟨exists_anchor_behind hc front rest hkey hname, fun hcolon hword => ?_, ?_⟩
  · exact Text.exists_isKey_of_keyAt (Text.ne_nil_of_isName hkey) hword
      (keyAt_behind hc front rest hcolon)
  · intro blanks calls hword hblanks hopen hlocate
    have hne := Text.ne_nil_of_isQualifiedName (isQualifiedName_of_constructRefusal? hconstruct)
    exact exists_call_behind hc front rest hne hword hblanks hopen hlocate

theorem found_behind_sample :
    let target : Target := ⟨['P'], .round⟩
    let key : Text := ['a']
    let t : Text := "(éP \n(éa: 1,))".toList
    let args : Text := "éa: 1,".toList
    constructRefusal? target.construct = none ∧ key.isName = true ∧
    target.locate t = .ok [⟨3, 7, 14⟩] ∧ FoundAt target key t 3 ∧ t.Before 3 'é' ∧
    isNameChar 'é' = true ∧ 128 ≤ 'é'.toNat ∧
    (∃ a ∈ args.anchors key, a.offset = 2) ∧
    (∃ o ∈ args.occurrences key, o.isKey = true ∧ o.offset = 2) ∧
    ∃ call ∈ [(⟨3, 7, 14⟩ : Call)], call.start = 3 := by
  intro target key t args
  have hconstruct : constructRefusal? target.construct = none := by decide +kernel
  have hkey : key.isName = true := by decide +kernel
  have hlocate : target.locate t = .ok [⟨3, 7, 14⟩] := by rfl
  have hcalls : target.calls t = [.ok ⟨3, 7, 14⟩] := by rfl
  have hmem : .ok ⟨3, 7, 14⟩ ∈ target.calls t := by simp [hcalls]
  have hfound : FoundAt target key t 3 := .call hmem
  have hbefore : t.Before 3 'é' := ⟨['('], "P \n(éa: 1,))".toList, rfl, rfl⟩
  have hname : isNameChar 'é' = true := by decide +kernel
  obtain ⟨hboundary, hbehind⟩ := found_behind hconstruct hkey
  have hbeyond : 128 ≤ 'é'.toNat := hboundary t 3 'é' hfound hbefore hname
  refine ⟨hconstruct, hkey, hlocate, hfound, hbefore, hname, hbeyond, ?_, ?_, ?_⟩
  · exact (hbehind 'é' [] ": 1,".toList hname hbeyond).1 rfl rfl
  · exact (hbehind 'é' [] ": 1,".toList hname hbeyond).2.1 rfl (List.all_eq_true.1 rfl)
  · have hcall := (hbehind 'é' ['('] "éa: 1,))".toList hname hbeyond).2.2 " \n".toList [⟨3, 7, 14⟩]
    exact hcall (List.all_eq_true.1 rfl) (List.all_eq_true.1 rfl) rfl hlocate

/-- The tail of a longer name is found. `éP` and `éa` are names, and in this text the call is
that of `P`, and the anchor and the key are `a`. -/
theorem found_in_name :
    let target : Target := ⟨['P'], .round⟩
    let key : Text := ['a']
    let t : Text := "éP(éa: 1,)".toList
    let call : Call := ⟨2, 4, 11⟩
    let args : Text := "éa: 1,".toList
    constructRefusal? target.construct = none ∧ key.isName = true ∧ isNameChar 'é' = true ∧
    constructRefusal? "éP".toList = none ∧ Text.isName "éa".toList = true ∧
    t.Before 2 'é' ∧ target.locate t = .ok [call] ∧ call.start = 2 ∧
    argsOf t call = .ok args ∧ args.Before 2 'é' ∧
    args.anchors key = [⟨2, "a: 1,".toList⟩] ∧
    args.occurrences key = [⟨2, some 'é', ": 1,".toList⟩] ∧ args.hasKey key = true := by
  intro target key t call args
  have hconstruct : constructRefusal? target.construct = none := by decide +kernel
  have hkey : key.isName = true := by decide +kernel
  have hletter : isNameChar 'é' = true := by decide +kernel
  have hlonger : constructRefusal? "éP".toList = none := by decide +kernel
  have hlongerKey : Text.isName "éa".toList = true := by decide +kernel
  exact ⟨hconstruct, hkey, hletter, hlonger, hlongerKey, ⟨[], "P(éa: 1,)".toList, rfl, rfl⟩, rfl, rfl,
    rfl, ⟨[], "a: 1,".toList, rfl, rfl⟩, rfl, rfl, rfl⟩

end ArgFill
