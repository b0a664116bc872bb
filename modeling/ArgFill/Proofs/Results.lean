import Mathlib.Data.List.Forall2

/-!
# Lists of results

A function that may fail runs over a list up to the first failure. Either all items have results,
which are then in the same places (`mapM_eq_ok_iff`), or the failure is that of the first item that
has one (`mapM_eq_error_iff`).
-/

namespace ArgFill

variable {ε α β : Type} {f : α → Except ε β} {as : List α}

theorem mapM_eq_ok_iff {bs : List β} :
    as.mapM f = .ok bs ↔ List.Forall₂ (fun a b => f a = .ok b) as bs := by
  induction as generalizing bs with
  | nil => exact ⟨fun h => Except.ok.inj h ▸ .nil, fun h => by cases h; rfl⟩
  | cons a as ih =>
    rw [List.mapM_cons]
    constructor
    · intro h
      cases ha : f a with
      | error fault =>
        rw [ha] at h
        cases h
      | ok b =>
        cases has : as.mapM f with
        | error fault =>
          rw [ha, has] at h
          cases h
        | ok rest =>
          rw [ha, has] at h
          obtain rfl := Except.ok.inj h
          exact .cons ha (ih.1 has)
    · rintro (_ | ⟨ha, has⟩)
      rw [ha, ih.2 has]
      rfl

theorem mapM_eq_error_iff {fault : ε} : as.mapM f = .error fault ↔
    ∃ before a behind bs, as = before ++ a :: behind ∧
      List.Forall₂ (fun a b => f a = .ok b) before bs ∧ f a = .error fault := by
  constructor
  · intro h
    induction as with
    | nil => cases h
    | cons a as ih =>
      rw [List.mapM_cons] at h
      cases ha : f a with
      | error fault' =>
        rw [ha] at h
        obtain rfl := Except.error.inj h
        exact ⟨[], a, as, [], rfl, .nil, ha⟩
      | ok b =>
        cases has : as.mapM f with
        | ok rest =>
          rw [ha, has] at h
          cases h
        | error fault' =>
          rw [ha, has] at h
          obtain rfl := Except.error.inj h
          obtain ⟨before, a', behind, bs, rfl, hbefore, ha'⟩ := ih has
          exact ⟨a :: before, a', behind, b :: bs, rfl, .cons ha hbefore, ha'⟩
  · rintro ⟨before, a, behind, bs, rfl, hbefore, ha⟩
    rw [List.mapM_append, mapM_eq_ok_iff.2 hbefore, List.mapM_cons, ha]
    rfl

/-- Either every item of a list gives a result, or there is a first one that does not. -/
theorem forall₂_or_exists_error (f : α → Except ε β) (as : List α) :
    (∃ bs, List.Forall₂ (fun a b => f a = .ok b) as bs) ∨
      ∃ before a behind bs fault, as = before ++ a :: behind ∧
        List.Forall₂ (fun a b => f a = .ok b) before bs ∧ f a = .error fault := by
  cases has : as.mapM f with
  | ok bs => exact Or.inl ⟨bs, mapM_eq_ok_iff.1 has⟩
  | error fault =>
    obtain ⟨before, a, behind, bs, hsplit, hbefore, ha⟩ := mapM_eq_error_iff.1 has
    exact Or.inr ⟨before, a, behind, bs, fault, hsplit, hbefore, ha⟩

theorem map_eq_of_forall₂ {bs : List β} (h : List.Forall₂ (fun a b => f a = .ok b) as bs) :
    as.map f = bs.map Except.ok := by
  rw [← List.forall₂_eq_eq_eq, List.forall₂_map_left_iff, List.forall₂_map_right_iff]
  exact h

theorem mapM_append_error (bs : List β) (fault : ε) :
    (bs.map Except.ok ++ [Except.error fault]).mapM id = Except.error fault :=
  mapM_eq_error_iff.2 ⟨bs.map Except.ok, .error fault, [], bs, rfl,
    List.forall₂_map_left_iff.2 (List.forall₂_same.2 fun _ _ => rfl), rfl⟩

theorem exists_mapM_of_forall {R : α → β → Prop} (h : ∀ a ∈ as, ∃ b, f a = .ok b ∧ R a b) :
    ∃ bs, as.mapM f = .ok bs ∧ List.Forall₂ R as bs := by
  induction as with
  | nil => exact ⟨[], rfl, .nil⟩
  | cons a as ih =>
    obtain ⟨b, hb, hab⟩ := h a List.mem_cons_self
    obtain ⟨bs, hbs, hall⟩ := ih fun x hx => h x (List.mem_cons_of_mem a hx)
    exact ⟨b :: bs, mapM_eq_ok_iff.2 (.cons hb (mapM_eq_ok_iff.1 hbs)), .cons hab hall⟩

end ArgFill
