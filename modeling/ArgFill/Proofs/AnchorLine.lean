import ArgFill.Proofs.Run

/-!
# The line of an anchor

The argument of a rule goes in behind the comma that ends the value of an anchor, and its line begins
with the blanks of the line that holds this comma. `Filler.ItemAt` names what stands before the
comma: the text before the anchor, and the item, which goes from the anchor up to the comma.

* `slot?_eq_some_iff` : the anchor that gives the slot is the first one whose value a comma ends;
* `takeWhile_lastLine_item` : the blanks of the comma's line are those of the anchor's line, unless
  the item goes on over several lines; then they are those of its last line;
* `apply_aligns` : so an argument is indented like the anchor's line exactly if the last line of the
  item is, where the item has several;
* `aligned_with_value` : an argument that is indented like the last line of a value, and not like the
  anchor's line.
-/

namespace ArgFill

namespace Text

variable {args key : Text} {place : Nat}

/-- The anchor whose value the slot of a key is behind: the first one whose value a comma ends. -/
structure Chooses (args key : Text) (a : Anchor) (place : Nat) : Prop where
  first : ∃ passed later, args.anchors key = passed ++ a :: later ∧ ∀ b ∈ passed, b.slot? = none
  slot : a.slot? = some place

theorem slot?_eq_some_iff : args.slot? key = some place ↔ ∃ a, args.Chooses key a place := by
  rw [slot?, List.findSome?_eq_some_iff]
  constructor
  · rintro ⟨passed, a, later, hanchors, hslot, hpassed⟩
    exact ⟨a, ⟨passed, later, hanchors, hpassed⟩, hslot⟩
  · rintro ⟨a, ⟨passed, later, hanchors, hpassed⟩, hslot⟩
    exact ⟨passed, a, later, hanchors, hslot, hpassed⟩

theorem Chooses.mem {a : Anchor} (h : args.Chooses key a place) : a ∈ args.anchors key := by
  obtain ⟨passed, later, hanchors, -⟩ := h.first
  rw [hanchors]
  exact List.mem_append_right _ List.mem_cons_self

/-! ## Indentation -/

theorem exists_cons_of_isName (hkey : key.isName = true) :
    ∃ c k, key = c :: k ∧ isGap c = false := by
  obtain ⟨c, k, rfl⟩ := List.exists_cons_of_ne_nil (ne_nil_of_isName hkey)
  refine ⟨c, k, rfl, ?_⟩
  cases hgap : isGap c with
  | false => rfl
  | true => exact absurd List.mem_cons_self (not_mem_of_isName hkey (isNameChar_eq_false_of_isGap hgap))

theorem indentAt?_append_cons {c : Char} (hgap : isGap c = false) (front rest : Text) :
    (front ++ c :: rest).indentAt? front.size = some (front.lastLine.takeWhile isGap) :=
  indentAt?_eq_some_iff.2
    ⟨front, c :: rest, rfl, rfl, (takeWhile_append_cons hgap front.lastLine rest).symm⟩

theorem indentAt?_item (hkey : key.isName = true) (front rest : Text) :
    (front ++ (key ++ rest)).indentAt? front.size = some (front.lastLine.takeWhile isGap) := by
  obtain ⟨c, k, rfl, hgap⟩ := exists_cons_of_isName hkey
  exact indentAt?_append_cons hgap front (k ++ rest)

theorem takeWhile_lastLine_item (hkey : key.isName = true) (front rest : Text) :
    (front ++ (key ++ rest)).lastLine.takeWhile isGap =
      if '\n' ∈ key ++ rest then (key ++ rest).lastLine.takeWhile isGap
      else front.lastLine.takeWhile isGap := by
  split
  · next hmem =>
    obtain ⟨x, y, hsplit⟩ := List.append_of_mem hmem
    rw [hsplit, ← List.append_assoc, lastLine_append_lineFeed, lastLine_append_lineFeed]
  · next hnot =>
    obtain ⟨c, k, rfl, hgap⟩ := exists_cons_of_isName hkey
    rw [lastLine_append_of_not_mem hnot, List.cons_append, takeWhile_append_cons hgap]

end Text

namespace Filler

variable {filler : Filler} {budget : Nat} {t u : Text} {i : Insertion}

/-! ## Items -/

/-- The item that the argument of a rule goes in behind. Before it stands `front`, it begins with the
anchor that the list of the call chooses, and it goes up to the comma that ends the value. -/
structure ItemAt (filler : Filler) (call : Call) (rule : Rule) (t front item back : Text) : Prop where
  text : t = front ++ (item ++ ',' :: back)
  name : ∃ rest, item = rule.anchor ++ rest
  chosen : ∃ now args a place, filler.target.remeasure t call = .ok now ∧ now.args? t = some args ∧
    args.Chooses rule.anchor a place ∧ front.size = now.argsStart + a.offset ∧
    (front ++ item).size + 1 = now.argsStart + place

theorem exists_itemAt {call now : Call} {rule : Rule} {offset : Nat}
    (hanchor : rule.anchor.isName = true) (hnow : filler.target.remeasure t call = .ok now)
    (hslot : slot t now rule = .ok offset) :
    ∃ front item back, filler.ItemAt call rule t front item back ∧
      offset = (front ++ item).size + 1 := by
  obtain ⟨args, place, hargs, hplace, rfl⟩ := exists_place_of_slot hslot
  obtain ⟨a, ha⟩ := Text.slot?_eq_some_iff.1 hplace
  obtain ⟨x, rest, y, rfl, hoffset, rfl, -⟩ := Text.exists_item_of_mem_anchors hanchor ha.mem ha.slot
  obtain ⟨before, behind, rfl, hbefore, -⟩ := Text.between?_eq_some_iff.1 hargs
  refine ⟨before ++ x, rule.anchor ++ rest, y ++ behind, ⟨by simp, ⟨rest, rfl⟩, ?_⟩, ?_⟩
  · refine ⟨now, _, a, _, hnow, hargs, ha, ?_, ?_⟩
    · rw [Text.size_append, hbefore, hoffset]
    · simp only [Text.size_append]
      omega
  · simp only [Text.size_append]
    omega

/-- What is put in behind an item, and with which indentation. -/
theorem Inserts.exists_itemAt (haccepted : filler.refusal? = none)
    (hindent : filler.indent = .matchAnchor) {s s' : State} (h : filler.Inserts budget s s' i) :
    ∃ call calls rule front item back, s.calls = call :: calls ∧ rule ∈ filler.rules ∧
      i = ⟨call.start, (front ++ item).size + 1, rule.key⟩ ∧
      filler.ItemAt call rule s.progress.text front item back ∧
      s'.progress.text = front ++ (item ++ ',' ::
        (rule.insertion ((front ++ item).lastLine.takeWhile isGap) ++ back)) := by
  obtain ⟨call, calls, now, rule, offset, indent, hcalls, hrule, -, hnow, hslot, hblanks, hinsert,
    rfl⟩ := h.exists_put
  obtain ⟨front, item, back, hitem, rfl⟩ :=
    Filler.exists_itemAt (isName_of_refusal? haccepted hrule).2 hnow hslot
  refine ⟨call, calls, rule, front, item, back, hcalls, hrule, rfl, hitem, ?_⟩
  have htext : s.progress.text = front ++ item ++ ',' :: back := by
    rw [hitem.text, List.append_assoc]
  rw [htext, indentation_behind_comma, hindent] at hblanks
  obtain rfl := Except.ok.inj hblanks
  rw [htext, insert?_behind_comma] at hinsert
  rw [← Option.some.inj hinsert, Rule.insertion_eq]
  simp [Indent.behind]

/-- **An argument is indented like the line on which the value of its anchor ends.** Each insertion of
a report was made behind the item of the anchor that the list of its call chose at that moment. The
new line begins with the blanks of the line that holds the comma behind the item. These are the
blanks of the anchor's line exactly if the last line of the item begins with them, where the item
goes on over several lines. -/
theorem apply_aligns (haccepted : filler.refusal? = none) (hindent : filler.indent = .matchAnchor)
    {report : Report} (h : filler.apply budget t = .ok (u, report)) (hi : i ∈ report.insertions) :
    ∃ calls s s', filler.target.locate t = .ok calls ∧
      filler.Run budget ⟨calls.reverse, [], budget, ⟨t, [], []⟩⟩ s ∧
      filler.Inserts budget s s' i ∧
      filler.Run budget s' ⟨[], [], budget, ⟨u, report.insertions, report.skips⟩⟩ ∧
      ∃ call rest rule front item back indent, s.calls = call :: rest ∧ rule ∈ filler.rules ∧
        i = ⟨call.start, (front ++ item).size + 1, rule.key⟩ ∧
        filler.ItemAt call rule s.progress.text front item back ∧
        s'.progress.text = front ++ (item ++ ',' :: (rule.insertion indent ++ back)) ∧
        s.progress.text.indentAt? (front ++ item).size = some indent ∧
        (s.progress.text.indentAt? front.size = some indent ↔
          ('\n' ∈ item → item.lastLine.takeWhile isGap = front.lastLine.takeWhile isGap)) := by
  obtain ⟨calls, hlocate⟩ := exists_locate_of_apply h
  obtain ⟨s, s', hbefore, hinserts, hbehind⟩ := apply_inserts h hlocate hi
  obtain ⟨call, rest, rule, front, item, back, hcalls, hrule, rfl, hitem, htext⟩ :=
    hinserts.exists_itemAt haccepted hindent
  have hanchor := (isName_of_refusal? haccepted hrule).2
  refine ⟨calls, s, s', hlocate, hbefore, hinserts, hbehind, call, rest, rule, front, item, back, _,
    hcalls, hrule, rfl, hitem, htext, ?_, ?_⟩
  · rw [hitem.text, ← List.append_assoc, Text.indentAt?_append_cons (by decide)]
  · obtain ⟨more, rfl⟩ := hitem.name
    rw [hitem.text, List.append_assoc, Text.indentAt?_item hanchor,
      Text.takeWhile_lastLine_item hanchor, Option.some.injEq]
    split
    · next hmem => exact ⟨fun heq _ => heq.symm, fun hlines => (hlines hmem).symm⟩
    · next hnot => exact ⟨fun _ hmem => absurd hmem hnot, fun _ => rfl⟩

/-- The second argument is put in behind the first one, the literal of which has two lines. -/
theorem apply_aligns_sample :
    let filler : Filler := ⟨⟨['P'], .round⟩,
      [⟨['k'], ['a'], "[\n\t2]".toList⟩, ⟨['m'], ['k'], ['3']⟩], .matchAnchor⟩
    let t : Text := "P(\n  a: 1,\n)".toList
    let u : Text := "P(\n  a: 1,\n  k: [\n\t2],\n\tm: 3,\n)".toList
    let report : Report := ⟨['P'], 1, [⟨0, 10, ['k']⟩, ⟨0, 22, ['m']⟩], []⟩
    let i : Insertion := ⟨0, 22, ['m']⟩
    filler.refusal? = none ∧ filler.indent = .matchAnchor ∧
    filler.apply 9 t = .ok (u, report) ∧ i ∈ report.insertions ∧
    ∃ calls s s', filler.target.locate t = .ok calls ∧
      filler.Run 9 ⟨calls.reverse, [], 9, ⟨t, [], []⟩⟩ s ∧ filler.Inserts 9 s s' i ∧
      filler.Run 9 s' ⟨[], [], 9, ⟨u, report.insertions, report.skips⟩⟩ ∧
      ∃ call rest rule front item back indent, s.calls = call :: rest ∧ rule ∈ filler.rules ∧
        i = ⟨call.start, Text.size (front ++ item) + 1, rule.key⟩ ∧
        filler.ItemAt call rule s.progress.text front item back ∧
        s'.progress.text = front ++ (item ++ ',' :: (rule.insertion indent ++ back)) ∧
        s.progress.text.indentAt? (Text.size (front ++ item)) = some indent ∧
        (s.progress.text.indentAt? (Text.size front) = some indent ↔
          ('\n' ∈ item →
            (Text.lastLine item).takeWhile isGap = (Text.lastLine front).takeWhile isGap)) := by
  intro filler t u report i
  have haccepted : filler.refusal? = none := by decide +kernel
  have happly : filler.apply 9 t = .ok (u, report) := by rfl
  have hi : i ∈ report.insertions := by decide
  exact ⟨haccepted, rfl, happly, hi, apply_aligns haccepted rfl happly hi⟩

/-- An argument may be indented unlike its anchor. The line of the anchor begins with two
spaces, and that of the argument with the six before the end of the anchor's value. -/
theorem aligned_with_value :
    let filler : Filler := ⟨⟨['P'], .round⟩, [⟨['k'], ['a'], ['2']⟩], .matchAnchor⟩
    let rule : Rule := ⟨['k'], ['a'], ['2']⟩
    let front : Text := "P(\n  ".toList
    let item : Text := "a: f(\n      1)".toList
    let back : Text := "\n)".toList
    let t : Text := "P(\n  a: f(\n      1),\n)".toList
    let u : Text := "P(\n  a: f(\n      1),\n      k: 2,\n)".toList
    filler.refusal? = none ∧ filler.indent = .matchAnchor ∧ filler.target.brackets = .round ∧
    filler.apply 9 t = .ok (u, ⟨['P'], 1, [⟨0, 20, ['k']⟩], []⟩) ∧
    filler.ItemAt ⟨0, 2, 21⟩ rule t front item back ∧
    t.indentAt? front.size = some "  ".toList ∧
    u = front ++ (item ++ ',' :: (rule.insertion "      ".toList ++ back)) := by
  intro filler rule front item back t u
  have haccepted : filler.refusal? = none := by decide +kernel
  have happly : filler.apply 9 t = .ok (u, ⟨['P'], 1, [⟨0, 20, ['k']⟩], []⟩) := by rfl
  have hchosen : Text.Chooses "\n  a: f(\n      1),\n".toList ['a']
      ⟨3, "a: f(\n      1),\n".toList⟩ 18 :=
    ⟨⟨[], [], rfl, fun b hb => nomatch hb⟩, rfl⟩
  have hitem : filler.ItemAt ⟨0, 2, 21⟩ rule t front item back :=
    ⟨rfl, ⟨": f(\n      1)".toList, rfl⟩, ⟨0, 2, 21⟩, _, _, _, rfl, rfl, hchosen, rfl, rfl⟩
  exact ⟨haccepted, rfl, rfl, happly, hitem, rfl, rfl⟩

end Filler

end ArgFill
