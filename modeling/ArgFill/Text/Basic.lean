/-!
# Texts addressed by byte

A text is a list of characters. Every offset into a text counts the bytes of its UTF-8 form, so an
offset can miss: it can lie beyond the end, or inside a character of several bytes.

* `Text.size` : the number of bytes (`size_append`);
* `Text.cut?` : the parts before and from an offset. It answers exactly at the character boundaries
  of the text (`cut?_eq_some_iff`), and every other operation is made of it;
* `Text.between?`, `Text.insert?`, `Text.erase?` : read, add and remove at offsets, each with the
  decomposition of the text that it stands for.
-/

namespace ArgFill

/-- A text, as the list of its characters. -/
abbrev Text := List Char

namespace Text

/-- The number of bytes of a text in UTF-8. -/
def size : Text → Nat
  | [] => 0
  | c :: t => c.utf8Size + size t

@[simp] theorem size_nil : size [] = 0 := rfl

@[simp] theorem size_cons (c : Char) (t : Text) : size (c :: t) = c.utf8Size + size t := rfl

@[simp] theorem size_append (a b : Text) : size (a ++ b) = size a + size b := by
  induction a with
  | nil => simp
  | cons c a ih => simp [ih, Nat.add_assoc]

/-- The part of a text before an offset and the part from it, if the offset is the end of a
character or of nothing. -/
def cut? : Nat → Text → Option (Text × Text)
  | 0, t => some ([], t)
  | _ + 1, [] => none
  | n + 1, c :: t =>
    if c.utf8Size ≤ n + 1 then
      (cut? (n + 1 - c.utf8Size) t).map fun parts => (c :: parts.1, parts.2)
    else none

@[simp] theorem cut?_zero (t : Text) : cut? 0 t = some ([], t) := by cases t <;> rfl

theorem cut?_size_append (a b : Text) : cut? (size a) (a ++ b) = some (a, b) := by
  induction a with
  | nil => simp
  | cons c a ih =>
    have hc := c.utf8Size_pos
    obtain ⟨n, hn⟩ : ∃ n, c.utf8Size + size a = n + 1 := ⟨c.utf8Size + size a - 1, by omega⟩
    have hle : c.utf8Size ≤ n + 1 := by omega
    have hsub : n + 1 - c.utf8Size = size a := by omega
    simp [hn, cut?, hle, hsub, ih]

theorem eq_append_of_cut? {n : Nat} {t a b : Text} (h : cut? n t = some (a, b)) :
    t = a ++ b ∧ size a = n := by
  induction t generalizing n a with
  | nil =>
    cases n with
    | zero => simp_all [cut?]
    | succ n => simp [cut?] at h
  | cons c t ih =>
    cases n with
    | zero => simp_all [cut?]
    | succ n =>
      unfold cut? at h
      split at h
      · rename_i hle
        obtain ⟨⟨a', b'⟩, hab, heq⟩ := Option.map_eq_some_iff.1 h
        simp only [Prod.mk.injEq] at heq
        obtain ⟨rfl, rfl⟩ := heq
        obtain ⟨rfl, hs⟩ := ih hab
        exact ⟨rfl, by simp only [size_cons]; omega⟩
      · simp at h

/-- An offset splits a text in at most one way: at the boundary with that many bytes before it. -/
theorem cut?_eq_some_iff {n : Nat} {t a b : Text} :
    cut? n t = some (a, b) ↔ t = a ++ b ∧ size a = n :=
  ⟨eq_append_of_cut?, fun ⟨ht, hs⟩ => by rw [ht, ← hs]; exact cut?_size_append a b⟩

/-- The text from one offset up to another. -/
def between? (t : Text) (first last : Nat) : Option Text := do
  let (front, _) ← cut? last t
  let (_, inner) ← cut? first front
  pure inner

theorem between?_eq_some_iff {t inner : Text} {first last : Nat} :
    between? t first last = some inner ↔
      ∃ front back, t = front ++ inner ++ back ∧ size front = first ∧
        size (front ++ inner) = last := by
  constructor
  · intro h
    obtain ⟨⟨upTo, back⟩, hlast, hrest⟩ := Option.bind_eq_some_iff.1 h
    obtain ⟨⟨front, rest⟩, hfirst, hinner⟩ := Option.bind_eq_some_iff.1 hrest
    obtain ⟨rfl, rfl⟩ := eq_append_of_cut? hlast
    obtain ⟨rfl, rfl⟩ := eq_append_of_cut? hfirst
    obtain rfl : rest = inner := Option.some.inj hinner
    exact ⟨front, back, rfl, rfl, rfl⟩
  · rintro ⟨front, back, rfl, rfl, rfl⟩
    simp only [between?, cut?_size_append, Option.bind_eq_bind, Option.bind_some, Option.pure_def]

/-- The text with `added` put in at an offset. -/
def insert? (t : Text) (offset : Nat) (added : Text) : Option Text := do
  let (front, back) ← cut? offset t
  pure (front ++ added ++ back)

theorem insert?_eq_some_iff {t added u : Text} {offset : Nat} :
    insert? t offset added = some u ↔
      ∃ front back, t = front ++ back ∧ size front = offset ∧ u = front ++ added ++ back := by
  constructor
  · intro h
    obtain ⟨⟨front, back⟩, hcut, hu⟩ := Option.bind_eq_some_iff.1 h
    obtain ⟨rfl, hsize⟩ := eq_append_of_cut? hcut
    exact ⟨front, back, rfl, hsize, (Option.some.inj hu).symm⟩
  · rintro ⟨front, back, rfl, rfl, rfl⟩
    simp only [insert?, cut?_size_append, Option.bind_eq_bind, Option.bind_some, Option.pure_def]

/-- The text without what stands from one offset up to another. -/
def erase? (t : Text) (first last : Nat) : Option Text := do
  let (front, back) ← cut? last t
  let (front, _) ← cut? first front
  pure (front ++ back)

theorem erase?_eq_some_iff {t u : Text} {first last : Nat} :
    erase? t first last = some u ↔
      ∃ front inner back, t = front ++ inner ++ back ∧ size front = first ∧
        size (front ++ inner) = last ∧ u = front ++ back := by
  constructor
  · intro h
    obtain ⟨⟨upTo, back⟩, hlast, hrest⟩ := Option.bind_eq_some_iff.1 h
    obtain ⟨⟨front, inner⟩, hfirst, hu⟩ := Option.bind_eq_some_iff.1 hrest
    obtain ⟨rfl, rfl⟩ := eq_append_of_cut? hlast
    obtain ⟨rfl, rfl⟩ := eq_append_of_cut? hfirst
    exact ⟨front, inner, back, rfl, rfl, rfl, (Option.some.inj hu).symm⟩
  · rintro ⟨front, inner, back, rfl, rfl, rfl, rfl⟩
    simp only [erase?, cut?_size_append, Option.bind_eq_bind, Option.bind_some, Option.pure_def]

def startsWith (t start : Text) : Bool := start.isPrefixOf t

end Text

end ArgFill
