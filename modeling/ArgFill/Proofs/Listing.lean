import ArgFill.Listing
import ArgFill.Proofs.Lines
import ArgFill.Proofs.Measure
import ArgFill.Proofs.Results
import Mathlib.Data.List.TakeWhile

/-!
# What a listing says

A listing has one entry for each located call. The offsets of an entry are at boundaries of
characters as soon as the closing bracket is one byte, so the whole call can be read.

* `FirstLine` : the ways in which the first line of a text ends;
* `Entry.Describes` : what an entry says of its call;
* `listCalls_describes` : a listing fails only where locating does; otherwise its entries describe
  the located calls one by one.
-/

namespace ArgFill

/-! ## The first line -/

namespace Text

/-- The ways in which the first line of a text ends: with the text, at a line feed, or at a carriage
return with a line feed behind it. -/
inductive FirstLine (t line : Text) : Prop
  | whole (hfeed : '\n' ∉ t) (h : t = line)
  | feed (rest : Text) (h : t = line ++ '\n' :: rest) (hfeed : '\n' ∉ line)
      (hlast : line.getLast? ≠ some '\r')
  | returned (rest : Text) (h : t = line ++ '\r' :: '\n' :: rest) (hfeed : '\n' ∉ line)

theorem takeWhile_lineFeed {upTo rest : Text} (h : '\n' ∉ upTo) :
    (upTo ++ '\n' :: rest).takeWhile (· ≠ '\n') = upTo := by
  rw [List.takeWhile_append_of_pos fun c hc => ?_, List.takeWhile_cons_of_neg (by decide),
    List.append_nil]
  exact decide_eq_true fun heq => h (heq ▸ hc)

theorem firstLine_spec (t : Text) : FirstLine t t.firstLine := by
  unfold firstLine
  by_cases hfeed : '\n' ∈ t
  · obtain ⟨upTo, rest, rfl, hupTo⟩ := List.eq_append_cons_of_mem hfeed
    simp only [takeWhile_lineFeed hupTo, List.contains_iff_mem.2 hfeed, Bool.true_and]
    split
    · next hreturn =>
      obtain ⟨line, rfl⟩ := List.getLast?_eq_some_iff.1 (beq_iff_eq.1 hreturn)
      rw [List.dropLast_concat]
      exact .returned rest (by simp) fun hmem => hupTo (List.mem_append_left _ hmem)
    · next hreturn =>
      exact .feed rest rfl hupTo fun hlast => hreturn (beq_iff_eq.2 hlast)
  · have hcontains : t.contains '\n' = false := by simpa using hfeed
    simp only [hcontains, Bool.false_and]
    refine .whole hfeed (List.takeWhile_eq_self_iff.2 fun c hc => ?_).symm
    exact decide_eq_true fun heq => hfeed (heq ▸ hc)

theorem prefix_of_not_mem {name line rest : Text} {c : Char} (h : name <+: line ++ c :: rest)
    (hc : c ∉ name) : name <+: line := by
  obtain ⟨behind, hsplit⟩ := h
  rcases List.append_eq_append_iff.1 hsplit with ⟨mid, rfl, -⟩ | ⟨mid, rfl, hmid⟩
  · exact List.prefix_append _ _
  · cases mid with
    | nil => exact (List.append_nil line).symm ▸ List.prefix_refl _
    | cons d mid =>
      obtain rfl := (List.cons.inj hmid).1
      exact absurd (List.mem_append_right line List.mem_cons_self) hc

theorem FirstLine.prefix_line {t line name : Text} (h : FirstLine t line) (hname : name <+: t)
    (hfeed : '\n' ∉ name) (hreturn : '\r' ∉ name) : name <+: line := by
  cases h with
  | whole _ heq => exact heq ▸ hname
  | feed rest heq => exact prefix_of_not_mem (heq ▸ hname) hfeed
  | returned rest heq => exact prefix_of_not_mem (heq ▸ hname) hreturn

/-! ## Bytes -/

theorem bytes_append (a b : Text) : bytes (a ++ b) = a.bytes ++ b.bytes := List.flatMap_append

theorem length_bytes (t : Text) : t.bytes.length = t.size := by
  induction t with
  | nil => rfl
  | cons c t ih => rw [bytes_cons, List.length_append, String.length_utf8EncodeChar, ih, size_cons]

theorem bytes_getElem?_of_utf8Size {front back : Text} {c : Char} (h : c.utf8Size = 1) :
    ∃ b, String.utf8EncodeChar c = [b] ∧ (front ++ c :: back).bytes[front.size]? = some b := by
  rw [← String.length_utf8EncodeChar] at h
  obtain ⟨b, hb⟩ := List.length_eq_one_iff.1 h
  refine ⟨b, hb, ?_⟩
  rw [bytes_append, bytes_cons, hb, ← length_bytes, List.getElem?_append_right (Nat.le_refl _),
    Nat.sub_self]
  rfl

end Text

/-! ## Entries -/

/-- What an entry says of a call. -/
structure Entry.Describes (target : Target) (t : Text) (call : Call) (entry : Entry) : Prop where
  start : entry.start = call.start
  stop : entry.stop = call.argsEnd + 1
  line : entry.position.line = 1 + (t.bytes.take entry.start).count Text.lineFeed
  column : ∃ lineStart, t.lineStarts[entry.position.line - 1]? = some lineStart ∧
    t.LineBegin entry.start lineStart ∧ lineStart + entry.position.column = entry.start + 1
  closing : ∃ b, String.utf8EncodeChar target.brackets.closing = [b] ∧
    t.bytes[entry.stop - 1]? = some b
  text : ∃ front whole back, t = front ++ whole ++ back ∧ Text.size front = entry.start ∧
    (front ++ whole).size = entry.stop ∧ Text.FirstLine whole entry.text
  name : target.construct <+: entry.text

section

variable {target : Target} (hname : constructRefusal? target.construct = none)
  (hone : target.brackets.closing.utf8Size = 1) {t : Text}

include hname hone

theorem Target.Written.exists_ofCall {call : Call} {front blanks args back : Text}
    (h : target.Written t call front blanks args back) :
    ∃ entry, Entry.ofCall t call = .ok entry ∧ entry.Describes target t call := by
  have hqualified := isQualifiedName_of_constructRefusal? hname
  have hstart := h.start
  have hargs := h.argsStart
  have hend := h.argsEnd
  -- the call as a part of the text
  generalize hwhole : target.construct ++
    (blanks ++ target.brackets.opening :: (args ++ [target.brackets.closing])) = whole
  have htext : t = front ++ whole ++ back := by
    rw [h.text, ← hwhole]
    simp
  have hsize : (front ++ whole).size = call.stop := by
    unfold Call.stop
    simp only [← hwhole, Text.size_append, Text.size_cons, Text.size_nil] at hargs ⊢
    omega
  have hread : call.whole? t = some whole :=
    Text.between?_eq_some_iff.2 ⟨front, back, htext, hstart.symm, hsize⟩
  have hfirst := Text.firstLine_spec whole
  have hofCall : Entry.ofCall t call =
      .ok ⟨t.position call.start, call.start, call.stop, whole.firstLine⟩ := by
    unfold Entry.ofCall
    rw [hread]
    rfl
  obtain ⟨lineStart, hlineStart, hbegin, hposition⟩ := Text.exists_position t call.start
  refine ⟨_, hofCall, rfl, rfl, ?_, ⟨lineStart, ?_, hbegin, ?_⟩, ?_,
    ⟨front, whole, back, htext, hstart.symm, hsize, hfirst⟩, ?_⟩
  · rw [hposition]
  · exact hlineStart
  · have := hbegin.le
    simp only [hposition]
    omega
  · -- what stands before the last byte is all but the closing bracket
    have hsplit : t = (front ++ target.construct ++ blanks ++ target.brackets.opening :: args) ++
        target.brackets.closing :: back := by
      rw [h.text]
      simp
    have hlast :
        Text.size (front ++ target.construct ++ blanks ++ target.brackets.opening :: args) =
          call.stop - 1 := by
      rw [Text.size_append, Text.size_cons]
      unfold Call.stop
      omega
    obtain ⟨b, hb, hbyte⟩ := Text.bytes_getElem?_of_utf8Size hone
    refine ⟨b, hb, ?_⟩
    rw [hsplit, ← hlast]
    exact hbyte
  · exact hfirst.prefix_line (hwhole ▸ List.prefix_append _ _)
      (Text.not_mem_of_isQualifiedName hqualified isNameChar_lineFeed (by decide))
      (Text.not_mem_of_isQualifiedName hqualified (by decide +kernel) (by decide))

end

/-! ## Listings -/

theorem starts_of_describes {target : Target} {t : Text} {calls : List Call} {entries : List Entry}
    (h : List.Forall₂ (Entry.Describes target t) calls entries) :
    entries.map Entry.start = calls.map Call.start := by
  induction h with
  | nil => rfl
  | cons hentry _ ih => rw [List.map_cons, List.map_cons, hentry.start, ih]

/-- **A listing describes the located calls.** It fails only where a call does not end, as locating
does. Otherwise it has one entry for each located call, in strictly ascending order. Line and column
of an entry lead back to where the call begins, the closing bracket is its last byte, and its text
is the first line of the call, which begins with the name. -/
theorem listCalls_describes {target : Target} (hname : constructRefusal? target.construct = none)
    (hone : target.brackets.closing.utf8Size = 1) (t : Text) :
    (∃ opened, target.locate t = .error (.unclosed target.construct opened) ∧
      listCalls target t = .error (.unclosed target.construct opened)) ∨
    ∃ calls entries, target.locate t = .ok calls ∧ listCalls target t = .ok entries ∧
      List.Forall₂ (Entry.Describes target t) calls entries ∧
      entries.Pairwise fun e f => e.start < f.start := by
  unfold listCalls
  cases hlocate : target.locate t with
  | error fault =>
    obtain ⟨opened, rfl⟩ := Target.eq_unclosed_of_locate hlocate
    exact Or.inl ⟨opened, rfl, rfl⟩
  | ok calls =>
    have hentry : ∀ call ∈ calls, ∃ entry,
        Entry.ofCall t call = .ok entry ∧ entry.Describes target t call := by
      intro call hcall
      obtain ⟨front, blanks, args, back, hwritten⟩ :=
        Target.exists_written_of_mem_locate hlocate hcall
      exact hwritten.exists_ofCall hname hone
    obtain ⟨entries, hentries, hdescribes⟩ := exists_mapM_of_forall hentry
    have hascending := Target.pairwise_locate (isQualifiedName_of_constructRefusal? hname) hlocate
    refine Or.inr ⟨calls, entries, rfl, hentries, hdescribes, ?_⟩
    rw [← List.pairwise_map (f := Entry.start) (R := (· < ·)), starts_of_describes hdescribes,
      List.pairwise_map]
    exact hascending.imp fun h => h.1

theorem listCalls_describes_sample :
    let target : Target := ⟨['P', '.', 'q'], ⟨'«', ')'⟩⟩
    let t : Text := "é\r\nP.q\r\n «é, P.q«x))".toList
    constructRefusal? target.construct = none ∧ target.brackets.closing.utf8Size = 1 ∧
    listCalls target t =
      .ok [⟨⟨2, 1⟩, 4, 24, ['P', '.', 'q']⟩, ⟨⟨3, 8⟩, 16, 23, "P.q«x)".toList⟩] ∧
    ((∃ opened, target.locate t = .error (.unclosed target.construct opened) ∧
      listCalls target t = .error (.unclosed target.construct opened)) ∨
    ∃ calls entries, target.locate t = .ok calls ∧ listCalls target t = .ok entries ∧
      List.Forall₂ (Entry.Describes target t) calls entries ∧
      entries.Pairwise fun e f => e.start < f.start) := by
  intro target t
  have hname : constructRefusal? target.construct = none := by decide +kernel
  have hone : target.brackets.closing.utf8Size = 1 := by decide
  exact ⟨hname, hone, by decide +kernel, listCalls_describes hname hone t⟩

end ArgFill
