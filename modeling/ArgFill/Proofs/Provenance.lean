import ArgFill.Proofs.Replay

/-!
# Where a result comes from

`Marked` is a text whose characters tell which of them were put in. The report of a run marks its
result (`Filler.Marks`), so that the text it began with can be read off it again.

* `Marked.At` : where a place of the source stands, and `At.insert` : where it goes when more is put
  in;
* `Marks.exists_moved` : the calls located in a marked text are those of its source, each where its
  offsets stand now;
* `apply_keeps_calls` : what a run with inert literals does to calls. Each of them is still there,
  behind what was put in before it, with its old arguments around what was put in between them, and
  nested as before.
-/

namespace ArgFill

structure Mark where
  char : Char
  isNew : Bool
  deriving DecidableEq, Repr

abbrev Marked := List Mark

namespace Marked

def text (m : Marked) : Text := m.map Mark.char

/-- The characters that were there. -/
def source (m : Marked) : Text := (m.filter fun c => !c.isNew).map Mark.char

def added (m : Marked) : Text := (m.filter Mark.isNew).map Mark.char

def old (t : Text) : Marked := t.map fun c => ⟨c, false⟩

def new (t : Text) : Marked := t.map fun c => ⟨c, true⟩

/-- The place `k` of the source stands at the place `n` of the text. -/
def At (m : Marked) (n k : Nat) : Prop :=
  ∃ front back : Marked, m = front ++ back ∧ front.text.size = n ∧ front.source.size = k

/-- The call `call` of the source stands at `now`. It begins behind what was put in before it. What
is left of its argument list without the characters put in is the argument list it had. -/
structure Follows (m : Marked) (call now : Call) : Prop where
  start : ∃ front back : Marked, m = front ++ back ∧ front.text.size = now.start ∧
    front.source.size = call.start ∧ now.start = call.start + front.added.size
  args : ∃ front args back : Marked, m = front ++ args ++ back ∧ front.text.size = now.argsStart ∧
    now.args? m.text = some args.text ∧ call.args? m.source = some args.source

variable (m front back : Marked) (t u : Text)

@[simp] theorem text_append : (front ++ back).text = front.text ++ back.text := List.map_append

@[simp] theorem source_append : (front ++ back).source = front.source ++ back.source := by
  simp [source]

@[simp] theorem text_old : (old t).text = t := by simp [text, old, Function.comp_def]

@[simp] theorem text_new : (new t).text = t := by simp [text, new, Function.comp_def]

@[simp] theorem source_old : (old t).source = t := by
  simp [source, old, List.filter_map, Function.comp_def]

@[simp] theorem source_new : (new t).source = [] := by
  simp [source, new, List.filter_map, Function.comp_def]

theorem old_append : old (t ++ u) = old t ++ old u := List.map_append

theorem size_text : m.text.size = m.source.size + m.added.size := by
  induction m with
  | nil => rfl
  | cons c m ih =>
    have hcons : Text.size (text (c :: m)) = c.char.utf8Size + Text.size (text m) := rfl
    rw [hcons, ih]
    cases hnew : c.isNew <;> simp [source, added, hnew] <;> omega

variable {m front back t u}

theorem size_text_pos (h : m ≠ []) : 0 < m.text.size := by
  obtain ⟨c, rest, rfl⟩ := List.exists_cons_of_ne_nil h
  exact Nat.lt_of_lt_of_le c.char.utf8Size_pos (Nat.le_add_right _ _)

theorem exists_append_of_text (h : m.text = t ++ u) :
    ∃ front back : Marked, m = front ++ back ∧ front.text = t ∧ back.text = u :=
  List.map_eq_append_iff.1 h

theorem At.insert {n k : Nat} (h : (front ++ back).At n k) (t : Text) :
    (front ++ new t ++ back).At (movedBy front.text.size t.size n) k := by
  obtain ⟨x, y, hsplit, rfl, rfl⟩ := h
  have behind : ∀ mid : Marked, x = front ++ mid → back = mid ++ y →
      (front ++ new t ++ back).At (movedBy front.text.size t.size x.text.size) x.source.size := by
    rintro mid rfl rfl
    refine ⟨front ++ new t ++ mid, y, by simp, ?_, by simp⟩
    rw [movedBy_of_le (by simp)]
    simp only [text_append, text_new, Text.size_append]
    omega
  rcases List.append_eq_append_iff.1 hsplit with ⟨mid, hx, hback⟩ | ⟨mid, hfront, hy⟩
  · exact behind mid hx hback
  · by_cases hmid : mid = []
    · subst hmid
      exact behind [] (by simpa using hfront.symm) (by simpa using hy.symm)
    · subst hfront hy
      have hlt : x.text.size < (x ++ mid).text.size := by
        have := size_text_pos hmid
        rw [text_append, Text.size_append]
        omega
      exact ⟨x, mid ++ new t ++ back, by simp, (movedBy_of_lt hlt).symm, rfl⟩

theorem At.args? {call now : Call} (hle : now.argsStart ≤ now.argsEnd)
    (hstart : m.At now.argsStart call.argsStart) (hend : m.At now.argsEnd call.argsEnd) :
    ∃ front args back : Marked, m = front ++ args ++ back ∧ front.text.size = now.argsStart ∧
      now.args? m.text = some args.text ∧ call.args? m.source = some args.source := by
  obtain ⟨front, rest, rfl, hfront, hfront'⟩ := hstart
  obtain ⟨upTo, back, hsplit, hupTo, hupTo'⟩ := hend
  have between : ∀ args : Marked, upTo = front ++ args → rest = args ++ back →
      ∃ front' args back : Marked, front ++ rest = front' ++ args ++ back ∧
        front'.text.size = now.argsStart ∧ now.args? (front ++ rest).text = some args.text ∧
        call.args? (front ++ rest).source = some args.source := by
    rintro args rfl rfl
    refine ⟨front, args, back, by simp, hfront, ?_, ?_⟩
    · exact Text.between?_eq_some_iff.2
        ⟨front.text, back.text, by simp, hfront, by rw [← text_append, hupTo]⟩
    · exact Text.between?_eq_some_iff.2
        ⟨front.source, back.source, by simp, hfront', by rw [← source_append, hupTo']⟩
  rcases List.append_eq_append_iff.1 hsplit with ⟨args, hargs, hrest⟩ | ⟨mid, hmid, hback⟩
  · exact between args hargs hrest
  · by_cases hnil : mid = []
    · subst hnil
      exact between [] (by simpa using hmid.symm) (by simpa using hback.symm)
    · have := size_text_pos hnil
      rw [hmid, text_append, Text.size_append] at hfront
      omega

end Marked

namespace Filler

/-- The insertions of a report, carried out one after the other, each marked as new. -/
inductive Marks (filler : Filler) (t : Text) : List Insertion → Marked → Prop
  | none : Marks filler t [] (.old t)
  | snoc {insertions : List Insertion} {i : Insertion} {front back : Marked} {added : Text}
      (h : Marks filler t insertions (front ++ back)) (hoffset : i.offset = front.text.size)
      (hput : filler.Puts (front ++ back).text i (front ++ .new added ++ back).text) :
      Marks filler t (insertions ++ [i]) (front ++ .new added ++ back)

variable {filler : Filler} {t u : Text} {insertions : List Insertion} {m : Marked}

theorem Marks.source_eq (h : filler.Marks t insertions m) : m.source = t := by
  induction h with
  | none => exact Marked.source_old t
  | snoc _ _ _ ih => simpa using ih

theorem Replays.exists_marks (h : filler.Replays t insertions u) :
    ∃ m, filler.Marks t insertions m ∧ m.text = u := by
  induction h with
  | none => exact ⟨_, .none, Marked.text_old t⟩
  | snoc _ hput ih =>
    obtain ⟨m, hmarks, htext⟩ := ih
    cases hput with
    | @behindComma x y indent rule callStart hrule hindent =>
      have hsplit : m.text = (x ++ [',']) ++ y := by simp [htext]
      obtain ⟨front, back, rfl, hfront, hback⟩ := Marked.exists_append_of_text hsplit
      have hgrown : (front ++ .new (rule.insertion indent) ++ back).text =
          x ++ ',' :: (rule.insertion indent ++ y) := by
        simp [hfront, hback]
      have hoffset : Text.size x + 1 = front.text.size := by
        rw [hfront, Text.size_append]
        rfl
      have hput : filler.Puts (front ++ back).text ⟨callStart, Text.size x + 1, rule.key⟩
          (front ++ .new (rule.insertion indent) ++ back).text := by
        rw [htext, hgrown]
        exact .behindComma callStart hrule hindent
      exact ⟨_, .snoc hmarks hoffset hput, hgrown⟩

/-- The text that an insertion adds stands behind a comma, as the argument of a rule and another
comma. -/
theorem Puts.exists_argument {i : Insertion} {front back added : Text}
    (h : filler.Puts (front ++ back) i (front ++ added ++ back)) (hoffset : i.offset = front.size) :
    ∃ x rule indent, front = x ++ [','] ∧ rule ∈ filler.rules ∧ (∀ c ∈ indent, isGap c = true) ∧
      added = rule.argument indent ++ [','] := by
  generalize hold : front ++ back = old at h
  generalize hnew : front ++ added ++ back = new at h
  cases h with
  | @behindComma x y indent rule callStart hrule hindent =>
    have hsize : front.size = (x ++ [',']).size := by
      rw [Text.size_append, ← hoffset]
      rfl
    obtain ⟨rfl, rfl⟩ : front = x ++ [','] ∧ back = y :=
      Text.append_inj_of_size_eq (hold.trans (by simp)) hsize
    obtain ⟨indent', hindent', hgaps⟩ := exists_indentation filler x back
    obtain rfl : indent' = indent := Except.ok.inj (hindent'.symm.trans hindent)
    refine ⟨x, rule, indent', rfl, hrule, hgaps, ?_⟩
    rw [← Rule.insertion_eq]
    simpa using hnew

section

variable (hinert : filler.Inert) {calls : List Call} (hlocate : filler.target.locate t = .ok calls)

include hinert hlocate

/-- The calls of a text stand where their offsets went. -/
theorem Marks.exists_moved (h : filler.Marks t insertions m) :
    ∃ g, StrictMono g ∧ filler.target.locate m.text = .ok (calls.map (Call.under g)) ∧
      ∀ front back, t = front ++ back → m.At (g front.size) front.size := by
  induction h with
  | none =>
    refine ⟨id, strictMono_id, by rwa [Marked.text_old, Call.map_under_id], ?_⟩
    rintro front back rfl
    exact ⟨.old front, .old back, Marked.old_append front back, by simp, by simp⟩
  | @snoc insertions i front back added _ hoffset hput ih =>
    obtain ⟨g, hmono, hlocated, hat⟩ := ih
    simp only [Marked.text_append, Marked.text_new] at hput hlocated
    obtain ⟨x, rule, indent, hfront, hrule, hindent, rfl⟩ := hput.exists_argument hoffset
    have hname := isQualifiedName_of_refusal? hinert.accepted
    have hbody := inert_argument hname hinert.brackets
      (isName_of_refusal? hinert.accepted hrule).1 (hinert.literals rule hrule) hindent
    have hslot : x.size + 1 = front.text.size := by
      rw [hfront, Text.size_append]
      rfl
    refine ⟨_, (strictMono_movedBy front.text.size (rule.argument indent ++ [',']).size).comp hmono,
      ?_, fun before behind hsplit => (hat before behind hsplit).insert _⟩
    rw [hfront, List.append_assoc] at hlocated
    have hgrown : (front ++ .new (rule.argument indent ++ [',']) ++ back).text =
        x ++ ',' :: (rule.argument indent ++ ',' :: back.text) := by
      simp [hfront]
    have hmoved := Target.locate_insert hname hinert.brackets hbody hlocated
    rw [List.map_map, hslot] at hmoved
    rw [hgrown]
    exact hmoved

omit hinert

theorem exists_append_of_mem_locate {call : Call} (hcall : call ∈ calls) :
    ∃ front back, t = front ++ back ∧ front.size = call.start := by
  obtain ⟨o, ho, hcallAt⟩ := Target.exists_occurrence_of_mem_locate hlocate hcall
  obtain ⟨front, ht, hoffset, -⟩ := Text.mem_occurrencesFrom ho
  obtain ⟨-, -, -, -, -, -, -, hstart, -⟩ := Target.exists_of_callAt?_eq_ok hcallAt
  exact ⟨front, filler.target.construct ++ o.after, by simp [ht], by omega⟩

/-- Where its offsets went a call is followed. -/
theorem follows_under {g : Nat → Nat} (hmono : StrictMono g)
    (hat : ∀ front back, t = front ++ back → m.At (g front.size) front.size) {call : Call}
    (hcall : call ∈ calls) : m.Follows call (call.under g) := by
  obtain ⟨before, behind, hsplit, hstart⟩ := exists_append_of_mem_locate hlocate hcall
  obtain ⟨args, before', behind', ht, hargsStart, hargsEnd, -⟩ :=
    Target.exists_hasArgs_of_mem_locate hlocate hcall
  have hbegin := hat before behind hsplit
  have hfirst := hat (before' ++ [filler.target.brackets.opening])
    (args ++ filler.target.brackets.closing :: behind') (by simp [ht])
  have hlast := hat (before' ++ filler.target.brackets.opening :: args)
    (filler.target.brackets.closing :: behind') (by simp [ht])
  have hsizeFirst : Text.size (before' ++ [filler.target.brackets.opening]) = call.argsStart := by
    rw [Text.size_append, Text.size_cons, Text.size_nil]
    omega
  have hsizeLast :
      Text.size (before' ++ filler.target.brackets.opening :: args) = call.argsEnd := by
    rw [Text.size_append, Text.size_cons]
    omega
  rw [hstart] at hbegin
  rw [hsizeFirst] at hfirst
  rw [hsizeLast] at hlast
  have hle : call.argsStart ≤ call.argsEnd := by omega
  obtain ⟨front, back, hm, htext, hsource⟩ := hbegin
  refine ⟨⟨front, back, hm, htext, hsource, ?_⟩, Marked.At.args? (hmono.monotone hle) hfirst hlast⟩
  have := Marked.size_text front
  simp only [Call.under]
  omega

end

/-- **A run keeps the calls.** The result has the calls of the text, one for one: each begins where
it began plus what was put in before it, its arguments without what was put in are the arguments it
had, and one call stands in the arguments of another exactly if it did. -/
theorem apply_keeps_calls (hinert : filler.Inert) {budget : Nat} {report : Report}
    (h : filler.apply budget t = .ok (u, report)) :
    ∃ m calls now, filler.Marks t report.insertions m ∧ m.source = t ∧ m.text = u ∧
      filler.target.locate t = .ok calls ∧ filler.target.locate u = .ok (calls.map now) ∧
      (∀ call ∈ calls, m.Follows call (now call)) ∧
      ∀ outer ∈ calls, ∀ inner ∈ calls,
        (now outer).contains (now inner) = outer.contains inner := by
  obtain ⟨calls, hlocate⟩ := exists_locate_of_apply h
  obtain ⟨m, hmarks, rfl⟩ := (replays_of_apply hinert.accepted h).exists_marks
  obtain ⟨g, hmono, hlocated, hat⟩ := hmarks.exists_moved hinert hlocate
  exact ⟨m, calls, Call.under g, hmarks, hmarks.source_eq, rfl, hlocate, hlocated,
    fun call hcall => follows_under hlocate hmono hat hcall,
    fun outer _ inner _ => Call.contains_under hmono outer inner⟩

theorem apply_keeps_calls_sample :
    let t := "P(a: 0,) P(a: P(z: 0,),)".toList
    let u := "P(a: 0,\nb: 1,) P(a: P(z: 0,\nd: 2,),\nb: 1,)".toList
    let report : Report := ⟨['P'], 3, [⟨14, 21, ['d']⟩, ⟨9, 29, ['b']⟩, ⟨0, 7, ['b']⟩],
      [⟨14, ['b'], ['a']⟩, ⟨0, ['d'], ['z']⟩]⟩
    sample.Inert ∧ sample.apply 3 t = .ok (u, report) ∧
    ∃ m calls now, sample.Marks t report.insertions m ∧ m.source = t ∧ m.text = u ∧
      sample.target.locate t = .ok calls ∧ sample.target.locate u = .ok (calls.map now) ∧
      (∀ call ∈ calls, m.Follows call (now call)) ∧
      ∀ outer ∈ calls, ∀ inner ∈ calls,
        (now outer).contains (now inner) = outer.contains inner := by
  intro t u report
  have h : sample.apply 3 t = .ok (u, report) := by rfl
  exact ⟨inert_sample, h, apply_keeps_calls inert_sample h⟩

end Filler

end ArgFill
