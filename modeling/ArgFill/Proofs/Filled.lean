import ArgFill.Proofs.Invariant
import Mathlib.Data.List.Forall2

/-!
# Every rule is met or reported

What a run of a filler with inert literals achieves. `apply_filled` says of every call, as it stands
in the result, that each rule has its key there or was reported as left out; that no call has more
entries in the report than there are rules; and that an argument is put in once, when it is missing.

While a call is filled (`Filling`), the entries made for it and the rules still open together never
outnumber the rules, and what was put in stays present.
-/

namespace ArgFill

/-- The number of entries of a report about the call that begins at `start`. -/
def entriesAt (insertions : List Insertion) (skips : List Skip) (start : Nat) : Nat :=
  insertions.countP (·.callStart == start) + skips.countP (·.callStart == start)

def addedKeys (insertions : List Insertion) : List (Nat × Text) :=
  insertions.map fun i => (i.callStart, i.key)

theorem entriesAt_eq_zero {insertions : List Insertion} {skips : List Skip} {start : Nat}
    (hins : ∀ i ∈ insertions, i.callStart ≠ start) (hskips : ∀ s ∈ skips, s.callStart ≠ start) :
    entriesAt insertions skips start = 0 := by
  have h1 : insertions.countP (·.callStart == start) = 0 :=
    List.countP_eq_zero.2 fun i hi => by simpa using hins i hi
  have h2 : skips.countP (·.callStart == start) = 0 :=
    List.countP_eq_zero.2 fun s hs => by simpa using hskips s hs
  rw [entriesAt, h1, h2]

theorem entriesAt_insertion (insertions : List Insertion) (skips : List Skip) (i : Insertion)
    (start : Nat) : entriesAt (insertions ++ [i]) skips start =
      entriesAt insertions skips start + if i.callStart = start then 1 else 0 := by
  simp only [entriesAt, List.countP_append, List.countP_singleton, beq_iff_eq]
  omega

theorem entriesAt_skip (insertions : List Insertion) (skips : List Skip) (s : Skip)
    (start : Nat) : entriesAt insertions (skips ++ [s]) start =
      entriesAt insertions skips start + if s.callStart = start then 1 else 0 := by
  simp only [entriesAt, List.countP_append, List.countP_singleton, beq_iff_eq]
  omega

namespace Filler

/-- What holds while a call is filled: rules left out are reported, what was put in is there,
nothing was put in twice, and each entry has closed a rule. -/
structure Filling (filler : Filler) (call : Call) (out : List Rule) (p : Progress) (args : Text) :
    Prop where
  skipped : ∀ rule ∈ out, ⟨call.start, rule.key, rule.anchor⟩ ∈ p.skips
  present : ∀ rule ∈ filler.rules, (call.start, rule.key) ∈ addedKeys p.insertions →
    args.hasKey rule.key = true
  entries : entriesAt p.insertions p.skips call.start + filler.openRules args out ≤
    filler.rules.length
  distinct : (addedKeys p.insertions).Nodup

/-- What holds of a call that is settled. -/
structure Filled (filler : Filler) (p : Progress) (call : Call) (args : Text) : Prop where
  complete : ∀ rule ∈ filler.rules,
    args.hasKey rule.key = true ∨ ⟨call.start, rule.key, rule.anchor⟩ ∈ p.skips
  entries : entriesAt p.insertions p.skips call.start ≤ filler.rules.length

theorem invariant_filled {filler : Filler} (hinert : filler.Inert) (budget : Nat)
    (calls : List Call) : filler.Invariant budget calls (fun p => (addedKeys p.insertions).Nodup)
      (fun call out _ p args => filler.Filling call out p args) filler.Filled where
  enter {call p} args h hins hskips := by
    have hnone : entriesAt p.insertions p.skips call.start = 0 :=
      entriesAt_eq_zero (fun i hi => (hins i hi).ne') fun s hs => (hskips s hs).ne'
    refine ⟨fun rule hrule => (nomatch hrule), fun rule _ hadded => ?_, ?_, h⟩
    · obtain ⟨i, hi, heq⟩ := List.mem_map.1 hadded
      have := hins i hi
      simp only [Prod.mk.injEq] at heq
      omega
    · rw [hnone, Nat.zero_add]
      exact List.countP_le_length
  settled {call out left p args} h _ hnext := by
    refine ⟨h.distinct, fun rule hrule => ?_, Nat.le_of_add_right_le h.entries⟩
    exact (next?_eq_none_iff.1 hnext rule hrule).imp_right (h.skipped rule)
  leftOut {call out left p args rule} h hnext _ := by
    refine ⟨fun r hr => ?_, h.present, ?_, h.distinct⟩
    · rcases List.mem_cons.1 hr with rfl | hr
      · exact List.mem_append_right _ List.mem_cons_self
      · exact List.mem_append_left _ (h.skipped r hr)
    · have hlt := openRules_lt hnext (fun _ _ hkey => hkey) (fun r hr => List.mem_cons_of_mem rule hr)
        (Or.inr List.mem_cons_self)
      have hle := h.entries
      rw [Progress.leave_insertions, Progress.leave_skips, entriesAt_skip, if_pos rfl]
      omega
  added {call out left p rule front x y back indent} h hnext _ _ _ hkey := by
    obtain ⟨hrule, hmissing, -⟩ := of_next?_eq_some hnext
    have hkeeps : ∀ r ∈ filler.rules, (x ++ ',' :: y).hasKey r.key = true →
        (x ++ ',' :: (rule.argument indent ++ ',' :: y)).hasKey r.key = true :=
      fun r hr hr' => Text.hasKey_insert (isName_of_refusal? hinert.accepted hr).1 hr' _
    refine ⟨h.skipped, fun r hr hadded => ?_, ?_, ?_⟩
    · rw [Progress.put_insertions, addedKeys, List.map_append, List.mem_append] at hadded
      rcases hadded with hadded | hadded
      · exact hkeeps r hr (h.present r hr hadded)
      · rw [(Prod.mk.inj (List.mem_singleton.1 hadded)).2]
        exact hkey
    · have hlt := openRules_lt hnext hkeeps (fun _ hr => hr) (Or.inl hkey)
      have hle := h.entries
      rw [Progress.put_insertions, Progress.put_skips, entriesAt_insertion, if_pos rfl]
      omega
    · rw [Progress.put_insertions, addedKeys, List.map_append, List.nodup_append]
      refine ⟨h.distinct, by simp, ?_⟩
      rintro k hk _ hnew rfl
      rw [List.mem_singleton.1 hnew] at hk
      rw [h.present rule hrule hk] at hmissing
      cases hmissing
  after_leave {p call done args} rule h _ _ hlt := by
    refine ⟨fun r hr => (h.complete r hr).imp_right (List.mem_append_left _), ?_⟩
    rw [Progress.leave_insertions, Progress.leave_skips, entriesAt_skip, if_neg hlt.ne]
    exact h.entries
  after_put {p call done args args' rule} indent h _ _ _ hlt hargs offset t := by
    refine ⟨fun r hr => (h.complete r hr).imp_left fun hkey => ?_, ?_⟩
    · rcases hargs with rfl | ⟨-, x, y, rfl, rfl⟩
      · exact hkey
      · exact Text.hasKey_insert (isName_of_refusal? hinert.accepted hr).1 hkey _
    · rw [Progress.put_insertions, Progress.put_skips, entriesAt_insertion, if_neg hlt.ne]
      exact h.entries

/-- **A result meets every rule at every call, or reports it as left out.** The calls of the result
are those of the text, one by one. No call has more entries in the report than there are rules, no
argument is put in twice, and each was put in by a turn that found its key missing. -/
theorem apply_filled {filler : Filler} (hinert : filler.Inert) {budget : Nat} {t u : Text}
    {report : Report} (h : filler.apply budget t = .ok (u, report)) :
    ∃ calls nows, filler.target.locate t = .ok calls ∧ filler.target.locate u = .ok nows ∧
      List.Forall₂ (fun call now => ∀ rule ∈ filler.rules, isPresent u now rule.key = .ok true ∨
        ⟨call.start, rule.key, rule.anchor⟩ ∈ report.skips) calls nows ∧
      (∀ call ∈ calls, entriesAt report.insertions report.skips call.start ≤ filler.rules.length) ∧
      (addedKeys report.insertions).Nodup ∧
      ∀ i ∈ report.insertions, ∃ s s',
        filler.Run budget ⟨calls.reverse, [], budget, ⟨t, [], []⟩⟩ s ∧ filler.Inserts budget s s' i ∧
        filler.Run budget s' ⟨[], [], budget, ⟨u, report.insertions, report.skips⟩⟩ := by
  obtain ⟨calls, hlocate⟩ := exists_locate_of_apply h
  obtain ⟨p, g, rfl, rfl, hdistinct, -, hlocated, hsettled⟩ :=
    (invariant_filled hinert budget calls).of_apply hinert hlocate List.nodup_nil h
  refine ⟨calls, calls.map (Call.under g), hlocate, hlocated, ?_, fun call hcall => ?_, hdistinct,
    fun i hi => apply_inserts h hlocate hi⟩
  · rw [List.forall₂_map_right_iff, List.forall₂_same]
    intro call hcall rule hrule
    obtain ⟨args, hargs, hfilled⟩ := hsettled call hcall
    refine (hfilled.complete rule hrule).imp_left fun hkey => ?_
    rw [isPresent_of_hasArgs hargs, hkey]
  · obtain ⟨args, -, hfilled⟩ := hsettled call hcall
    exact hfilled.entries

theorem apply_filled_sample :
    let t := "P(a: 0,) P(a: P(z: 0,),)".toList
    let u := "P(a: 0,\nb: 1,) P(a: P(z: 0,\nd: 2,),\nb: 1,)".toList
    let report : Report := ⟨['P'], 3, [⟨14, 21, ['d']⟩, ⟨9, 29, ['b']⟩, ⟨0, 7, ['b']⟩],
      [⟨14, ['b'], ['a']⟩, ⟨0, ['d'], ['z']⟩]⟩
    sample.Inert ∧ sample.apply 3 t = .ok (u, report) ∧
    ∃ calls nows, sample.target.locate t = .ok calls ∧ sample.target.locate u = .ok nows ∧
      List.Forall₂ (fun call now => ∀ rule ∈ sample.rules, isPresent u now rule.key = .ok true ∨
        ⟨call.start, rule.key, rule.anchor⟩ ∈ report.skips) calls nows ∧
      (∀ call ∈ calls, entriesAt report.insertions report.skips call.start ≤ sample.rules.length) ∧
      (addedKeys report.insertions).Nodup ∧
      ∀ i ∈ report.insertions, ∃ s s',
        sample.Run 3 ⟨calls.reverse, [], 3, ⟨t, [], []⟩⟩ s ∧ sample.Inserts 3 s s' i ∧
        sample.Run 3 s' ⟨[], [], 3, ⟨u, report.insertions, report.skips⟩⟩ := by
  intro t u report
  have h : sample.apply 3 t = .ok (u, report) := by rfl
  exact ⟨inert_sample, h, apply_filled inert_sample h⟩

end Filler

end ArgFill
