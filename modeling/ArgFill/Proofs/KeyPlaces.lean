import ArgFill.Proofs.Turn

/-!
# Where keys stand

`Text.KeyAt` says at which bytes of a text a key stands, wherever that is: it is not the tail of a
longer word, and a colon follows behind spaces and tabs. The search for presence leaves out what
overlaps an occurrence it has found, and the search for anchors leaves out what is quoted or nested.

* `hasKey_iff` : presence misses no key of word characters. An occurrence that reached into a key
  would end in a word character, and no key begins behind one;
* `keyAt_of_mem_anchors` : an anchor is such a place, so presence is not weaker than anchoring;
* `HasArgs.exists_append_of_contains` : the list of a nested call, behind its opening bracket, is a
  part of the outer list, and so its keys are keys of the outer list;
* `hasKey_exact` : the three together.
-/

namespace ArgFill

namespace Text

variable {t key : Text} {offset : Nat}

/-- A key stands at this byte of a text: no word character is before it, and a colon follows behind
any number of spaces and tabs. -/
def KeyAt (t key : Text) (offset : Nat) : Prop :=
  ∃ front gaps rest, t = front ++ (key ++ (gaps ++ ':' :: rest)) ∧ offset = front.size ∧
    (∀ c, front.getLast? = some c → isWordChar c = false) ∧ ∀ c ∈ gaps, isGap c = true

theorem endsWord_iff {before : Option Char} :
    endsWord before = true ↔ ∀ c, before = some c → isWordChar c = false := by
  cases before <;> simp [endsWord]

theorem keyAt_iff : t.KeyAt key offset ↔
    ∃ front rest, t = front ++ (key ++ rest) ∧ offset = Text.size front ∧
      endsWord front.getLast? = true ∧ rest.colonFollows = true := by
  constructor
  · rintro ⟨front, gaps, rest, ht, hoffset, hb, hgaps⟩
    exact ⟨front, gaps ++ ':' :: rest, ht, hoffset, endsWord_iff.2 hb,
      colonFollows_iff.2 ⟨gaps, rest, rfl, hgaps⟩⟩
  · rintro ⟨front, rest, ht, hoffset, hb, hcolon⟩
    obtain ⟨gaps, rest, rfl, hgaps⟩ := colonFollows_iff.1 hcolon
    exact ⟨front, gaps, rest, ht, hoffset, endsWord_iff.1 hb, hgaps⟩

/-! ## Presence -/

/-- An occurrence that counts for presence is the place of a key. -/
theorem keyAt_of_isKey {o : Occurrence} (h : o ∈ t.occurrences key) (hisKey : o.isKey = true) :
    t.KeyAt key o.offset := by
  obtain ⟨front, ht, hoffset, hbefore⟩ := mem_occurrences h
  rw [List.append_assoc] at ht
  rw [Occurrence.isKey, Bool.and_eq_true, hbefore] at hisKey
  exact keyAt_iff.2 ⟨front, o.after, ht, hoffset, hisKey⟩

/-- The search for presence comes to every place of a key. -/
theorem exists_isKey_of_keyAt (hkey : key ≠ []) (hword : ∀ c ∈ key, isWordChar c = true)
    (h : t.KeyAt key offset) : ∃ o ∈ t.occurrences key, o.isKey = true ∧ o.offset = offset := by
  obtain ⟨front, rest, rfl, rfl, hb, hcolon⟩ := keyAt_iff.1 h
  refine ⟨⟨front.size, front.getLast?, rest⟩, ?_, ?_, rfl⟩
  · rw [occurrences_eq hkey]
    exact mem_occurrencesFrom_of_endsWord_getLast? hkey hword hb rest
  · rw [Occurrence.isKey, hb, hcolon]
    rfl

/-- A key of word characters is present exactly if it stands somewhere. -/
theorem hasKey_iff (hkey : key ≠ []) (hword : ∀ c ∈ key, isWordChar c = true) :
    t.hasKey key = true ↔ ∃ offset, t.KeyAt key offset := by
  rw [hasKey, List.any_eq_true]
  constructor
  · rintro ⟨o, ho, hisKey⟩
    exact ⟨o.offset, keyAt_of_isKey ho hisKey⟩
  · rintro ⟨offset, h⟩
    obtain ⟨o, ho, hisKey, -⟩ := exists_isKey_of_keyAt hkey hword h
    exact ⟨o, ho, hisKey⟩

/-! ## Anchors -/

theorem keyAt_of_mem_anchors (hkey : key.isName = true) {a : Anchor} (h : a ∈ t.anchors key) :
    t.KeyAt key a.offset := by
  obtain ⟨front, rest, ht, hcolon, -, hb, rfl⟩ := (mem_anchors_iff hkey).1 h
  exact keyAt_iff.2 ⟨front, rest, ht, rfl, hb, hcolon⟩

theorem hasKey_of_slot? (hkey : key ≠ []) (hword : ∀ c ∈ key, isWordChar c = true) {place : Nat}
    (h : t.slot? key = some place) : t.hasKey key = true := by
  obtain ⟨a, ha, -⟩ := List.exists_of_findSome?_eq_some h
  have hname := isName_of_forall_isWordChar hkey hword
  exact (hasKey_iff hkey hword).2 ⟨a.offset, keyAt_of_mem_anchors hname ha⟩

end Text

/-! ## Nested calls -/

namespace Call

variable {b : Brackets} {t args inner key : Text} {outer call : Call}

theorem HasArgs.exists_append_of_contains (houter : outer.HasArgs b t args)
    (hcall : call.HasArgs b t inner) (hstart : call.start + b.opening.utf8Size ≤ call.argsStart)
    (hcontains : outer.contains call = true) :
    ∃ x y, args = x ++ b.opening :: (inner ++ y) := by
  obtain ⟨front, back, rfl, hfront, hend, -⟩ := houter
  obtain ⟨front', back', ht, hfront', hend', -⟩ := hcall
  simp only [contains, Bool.and_eq_true, decide_eq_true_eq] at hcontains
  have hopened : Text.size (front ++ [b.opening]) ≤ front'.size := by
    rw [Text.size_append, Text.size_cons, Text.size_nil]
    omega
  rw [List.append_cons] at ht
  obtain ⟨x, rfl, hrest⟩ := Text.exists_append_of_size_le ht hopened
  have hclosed : Text.size (x ++ b.opening :: inner) ≤ args.size := by
    simp only [Text.size_append, Text.size_cons, Text.size_nil] at hfront' ⊢
    omega
  have hsplit : x ++ b.opening :: inner ++ b.closing :: back' = args ++ b.closing :: back := by
    rw [hrest, List.append_assoc, List.cons_append]
  obtain ⟨y, rfl, -⟩ := Text.exists_append_of_size_le hsplit hclosed
  exact ⟨x, y, by rw [List.append_assoc, List.cons_append]⟩

/-- A key of a nested list is one of the outer list. -/
theorem HasArgs.hasKey_of_contains (houter : outer.HasArgs .round t args)
    (hcall : call.HasArgs .round t inner) (hstart : call.start < call.argsStart)
    (hcontains : outer.contains call = true) (hkey : '(' ∉ key) (h : inner.hasKey key = true) :
    args.hasKey key = true := by
  obtain ⟨x, y, rfl⟩ := houter.exists_append_of_contains hcall hstart hcontains
  have hsplit := Text.hasKey_append_cons hkey (by decide) (by decide) (by decide) x (inner ++ y)
  refine hsplit.trans ?_
  rw [Text.hasKey_append h y, Bool.or_true]

end Call

theorem Target.isPresent_of_contains {construct t key : Text} {outer call : Call}
    (houter : .ok outer ∈ Target.calls ⟨construct, .round⟩ t)
    (hcall : .ok call ∈ Target.calls ⟨construct, .round⟩ t)
    (hcontains : outer.contains call = true) (hkey : '(' ∉ key)
    (h : isPresent t call key = .ok true) : isPresent t outer key = .ok true := by
  obtain ⟨args, hargs⟩ := exists_hasArgs_of_mem_found (mem_found_of_mem_calls houter)
  obtain ⟨inner, hinner⟩ := exists_hasArgs_of_mem_found (mem_found_of_mem_calls hcall)
  have hstart := start_lt_argsStart_of_mem_found (mem_found_of_mem_calls hcall)
  rw [Filler.isPresent_of_hasArgs hinner, Except.ok.injEq] at h
  rw [Filler.isPresent_of_hasArgs hargs, hargs.hasKey_of_contains hinner hstart hcontains hkey h]

/-- **Presence is exact, and never weaker than anchoring.** A key of word characters is present in a
text exactly if it stands somewhere in it. Every anchor of the key is such a place, so a call whose
list has an anchor or a slot for the key has the key. A call also has the keys of the calls in its
list. -/
theorem hasKey_exact {key : Text} (hkey : key ≠ []) (hword : ∀ c ∈ key, isWordChar c = true) :
    (∀ t : Text, t.hasKey key = true ↔ ∃ offset, t.KeyAt key offset) ∧
    (∀ (t : Text) (a : Anchor), a ∈ t.anchors key →
      t.KeyAt key a.offset ∧ t.hasKey key = true) ∧
    (∀ (t : Text) (call : Call) (args : Text), argsOf t call = .ok args →
      args.anchors key ≠ [] → isPresent t call key = .ok true) ∧
    (∀ (t : Text) (call : Call) (rule : Rule) (offset : Nat), rule.anchor = key →
      slot t call rule = .ok offset → isPresent t call key = .ok true) ∧
    ∀ (target : Target) (t : Text) (outer call : Call), target.brackets = .round →
      .ok outer ∈ target.calls t → .ok call ∈ target.calls t → outer.contains call = true →
      isPresent t call key = .ok true → isPresent t outer key = .ok true := by
  have hname := Text.isName_of_forall_isWordChar hkey hword
  have hanchor : ∀ (t : Text) (a : Anchor), a ∈ t.anchors key →
      t.KeyAt key a.offset ∧ t.hasKey key = true := by
    intro t a ha
    have hplace := Text.keyAt_of_mem_anchors hname ha
    exact ⟨hplace, (Text.hasKey_iff hkey hword).2 ⟨a.offset, hplace⟩⟩
  refine ⟨fun t => Text.hasKey_iff hkey hword, hanchor, ?_, ?_, ?_⟩
  · intro t call args hargs hne
    obtain ⟨a, ha⟩ := List.exists_mem_of_ne_nil _ hne
    rw [Filler.isPresent_of_argsOf hargs, (hanchor args a ha).2]
  · rintro t call rule offset rfl hslot
    obtain ⟨args, place, hargs, hplace, -⟩ := Filler.exists_place_of_slot hslot
    have hlist : argsOf t call = .ok args := Fault.ofPlace_eq_ok_iff.2 hargs
    rw [Filler.isPresent_of_argsOf hlist, Text.hasKey_of_slot? hkey hword hplace]
  · rintro ⟨construct, brackets⟩ t outer call rfl houter hcall hcontains hpresent
    have hbracket : '(' ∉ key := Text.not_mem_of_isName hname (by decide +kernel)
    exact Target.isPresent_of_contains houter hcall hcontains hbracket hpresent

/-- A key that overlaps itself. It is the head of one word, where no colon follows, and then it
stands behind a letter that is no word character: in the list of a nested call, with a slot, and so
in the list of the outer call too. -/
theorem hasKey_exact_sample :
    let key : Text := "aa".toList
    let t : Text := "P(x: P(aaa: 1, éaa\t: 2,),)".toList
    let args : Text := "aaa: 1, éaa\t: 2,".toList
    let rule : Rule := ⟨['k'], key, ['0']⟩
    let outer : Call := ⟨0, 2, 26⟩
    let call : Call := ⟨5, 7, 24⟩
    let target : Target := ⟨['P'], .round⟩
    key ≠ [] ∧ (∀ c ∈ key, isWordChar c = true) ∧
    target.calls t = [.ok outer, .ok call] ∧ outer.contains call = true ∧
    argsOf t call = .ok args ∧ args.anchors key = [⟨10, "aa\t: 2,".toList⟩] ∧
    slot t call rule = .ok 24 ∧ (args.hasKey key = true ↔ ∃ offset, args.KeyAt key offset) ∧
    args.KeyAt key 10 ∧ isPresent t call key = .ok true ∧ isPresent t outer key = .ok true := by
  intro key t args rule outer call target
  have hkey : key ≠ [] := List.cons_ne_nil _ _
  have hword : ∀ c ∈ key, isWordChar c = true := List.all_eq_true.1 rfl
  have hcalls : target.calls t = [.ok outer, .ok call] := by rfl
  have hargs : argsOf t call = .ok args := by rfl
  have hanchors : args.anchors key = [⟨10, "aa\t: 2,".toList⟩] := by rfl
  have hslot : slot t call rule = .ok 24 := by rfl
  obtain ⟨hexact, hanchor, -, hfound, hnested⟩ := hasKey_exact hkey hword
  have hplace := (hanchor args ⟨10, "aa\t: 2,".toList⟩ (by simp [hanchors])).1
  have hpresent := hfound t call rule 24 rfl hslot
  refine ⟨hkey, hword, hcalls, rfl, hargs, hanchors, hslot, hexact args, hplace, hpresent, ?_⟩
  exact hnested target t outer call rfl (by simp [hcalls]) (by simp [hcalls]) rfl hpresent

end ArgFill
