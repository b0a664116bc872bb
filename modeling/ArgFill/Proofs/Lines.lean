import ArgFill.Text.Line
import Mathlib.Data.List.GetD
import Mathlib.Data.List.Pairwise
import Mathlib.Data.Prod.Lex
import Mathlib.Order.Monotone.Basic

/-!
# Lines and columns

The lines of a text begin at its first byte and behind every byte that is a line feed
(`lineStarts_eq`), so those up to an offset are told by the bytes before it. The line of an offset
is looked up among them by halving.

* `Bounds` : what halving keeps, `bounds_narrow` : where it ends;
* `lookup_fits` : what a look-up in an ascending list answers;
* `LineBegin` : the line that holds an offset begins at a place;
* `position_exact` : line and column of every offset are exact, and later offsets have later
  positions.
-/

namespace ArgFill

/-! ## Halving -/

def Lookup.Fits (starts : List Nat) (offset : Nat) : Lookup → Prop
  | .found place => starts[place]? = some offset
  | .absent next => next ≤ starts.length ∧ (∀ i < next, starts.getD i 0 < offset) ∧
      ∀ i, next ≤ i → i < starts.length → offset < starts.getD i 0

namespace Text

/-- The last number up to `offset` stands among the `size` numbers from place `base` on, if there
is one in the list. -/
structure Bounds (starts : List Nat) (offset base size : Nat) : Prop where
  pos : 0 < size
  inside : base + size ≤ starts.length
  before : base = 0 ∨ starts.getD base 0 ≤ offset
  behind : ∀ i, base + size ≤ i → i < starts.length → offset < starts.getD i 0

section

variable {starts : List Nat} {offset : Nat} (hsorted : starts.Pairwise (· < ·))

include hsorted

theorem getD_lt_getD {i j : Nat} (hij : i < j) (hj : j < starts.length) :
    starts.getD i 0 < starts.getD j 0 := by
  have hi : i < starts.length := by omega
  rw [List.getD_eq_getElem starts 0 hi, List.getD_eq_getElem starts 0 hj]
  exact List.pairwise_iff_getElem.1 hsorted i j hi hj hij

theorem Bounds.halve {base size : Nat} (h : Bounds starts offset base size) (hsize : 1 < size) :
    Bounds starts offset
      (if offset < starts.getD (base + size / 2) 0 then base else base + size / 2)
      (size - size / 2) := by
  obtain ⟨-, hinside, hbefore, hbehind⟩ := h
  split
  · next hlt =>
    refine ⟨by omega, by omega, hbefore, fun i hle hi => ?_⟩
    -- the middle is too large, and so is all behind it
    rcases Nat.lt_or_ge (base + size / 2) i with hmid | hmid
    · exact Nat.lt_trans hlt (getD_lt_getD hsorted hmid hi)
    · obtain rfl : i = base + size / 2 := by omega
      exact hlt
  · next hle =>
    refine ⟨by omega, by omega, Or.inr (by omega), fun i hi => hbehind i (by omega)⟩

theorem bounds_narrow {base size : Nat} (h : Bounds starts offset base size) :
    Bounds starts offset (narrow starts offset base size) 1 := by
  fun_induction narrow starts offset base size with
  | case1 base size hsize half ih => exact ih (h.halve hsorted hsize)
  | case2 base size hsize =>
    obtain rfl : size = 1 := by
      have := h.pos
      omega
    exact h

/-- A look-up in an ascending list finds the number, or the place where it would go in. -/
theorem lookup_fits : (lookup starts offset).Fits starts offset := by
  unfold lookup
  split
  · next hempty =>
    obtain rfl := List.isEmpty_iff.1 hempty
    exact ⟨Nat.le_refl 0, fun i hi => absurd hi (Nat.not_lt_zero i),
      fun i _ hi => absurd hi (Nat.not_lt_zero i)⟩
  · next hempty =>
    have hlength : 0 < starts.length := List.length_pos_iff.2 (by simpa using hempty)
    have hall : Bounds starts offset 0 starts.length :=
      ⟨hlength, by omega, Or.inl rfl, fun i hle hi => by omega⟩
    obtain ⟨-, hinside, hbefore, hbehind⟩ := bounds_narrow hsorted hall
    generalize narrow starts offset 0 starts.length = place at hinside hbefore hbehind
    simp only
    split
    · next heq =>
      show starts[place]? = some offset
      rw [List.getElem?_eq_getElem (by omega), ← heq, List.getD_eq_getElem starts 0 (by omega)]
    · next hne =>
      split
      · next hlt =>
        refine ⟨by omega, fun i hi => ?_, hbehind⟩
        rcases Nat.lt_or_ge i place with hip | hip
        · exact Nat.lt_trans (getD_lt_getD hsorted hip (by omega)) hlt
        · obtain rfl : i = place := by omega
          exact hlt
      · next hnlt =>
        -- only the first number of all can be too large
        obtain rfl : place = 0 := by omega
        refine ⟨by omega, fun i hi => absurd hi (Nat.not_lt_zero i), fun i _ hi => ?_⟩
        rcases Nat.eq_zero_or_pos i with rfl | hpos
        · omega
        · exact hbehind i (by omega) hi

end

section

variable {front behind : List Nat} {offset : Nat} (hsorted : (front ++ behind).Pairwise (· < ·))
  (hfront : ∀ s ∈ front, s ≤ offset) (hbehind : ∀ s ∈ behind, offset < s)

include hfront hbehind

theorem getD_append_le_iff {i : Nat} (hi : i < (front ++ behind).length) :
    (front ++ behind).getD i 0 ≤ offset ↔ i < front.length := by
  rw [List.getD_eq_getElem _ 0 hi]
  rcases Nat.lt_or_ge i front.length with hlt | hge
  · rw [List.getElem_append_left hlt]
    exact iff_of_true (hfront _ (List.getElem_mem hlt)) hlt
  · rw [List.getElem_append_right hge]
    have := hbehind _ (List.getElem_mem (l := behind) (n := i - front.length)
      (by rw [List.length_append] at hi; omega))
    omega

include hsorted

/-- A look-up tells how many numbers are up to the offset. -/
theorem lookup_append :
    lookup (front ++ behind) offset = .absent front.length ∨
      ∃ place, lookup (front ++ behind) offset = .found place ∧ place + 1 = front.length := by
  have hle := fun {i : Nat} => getD_append_le_iff (i := i) hfront hbehind
  have hfits : (lookup (front ++ behind) offset).Fits (front ++ behind) offset :=
    lookup_fits hsorted
  cases hlookup : lookup (front ++ behind) offset with
  | found place =>
    rw [hlookup] at hfits
    obtain ⟨hplace, heq⟩ := List.getElem?_eq_some_iff.1 hfits
    have hlt : place < front.length := by
      rw [← hle hplace, List.getD_eq_getElem _ 0 hplace]
      exact Nat.le_of_eq heq
    refine Or.inr ⟨place, rfl, ?_⟩
    by_contra hne
    have hnext : place + 1 < (front ++ behind).length := by
      rw [List.length_append]
      omega
    have hless := getD_lt_getD hsorted (Nat.lt_add_one place) hnext
    rw [List.getD_eq_getElem _ 0 hplace, heq] at hless
    have := (hle hnext).2 (by omega)
    omega
  | absent next =>
    rw [hlookup] at hfits
    obtain ⟨hlength, hsmall, hlarge⟩ := hfits
    rw [List.length_append] at hlength hlarge
    refine Or.inl (congrArg Lookup.absent ?_)
    rcases Nat.lt_trichotomy next front.length with hlt | heq | hgt
    · have := (hle (i := next) (by rw [List.length_append]; omega)).2 hlt
      have := hlarge next (Nat.le_refl _) (by omega)
      omega
    · exact heq
    · have := (hle (i := front.length) (by rw [List.length_append]; omega)).1
        (Nat.le_of_lt (hsmall _ hgt))
      omega

theorem lineAt_append (hne : front ≠ []) : lineAt (front ++ behind) offset = front.length - 1 := by
  have hpos := List.length_pos_iff.2 hne
  unfold lineAt
  rcases lookup_append hsorted hfront hbehind with h | ⟨place, h, hplace⟩
  · rw [h]
  · rw [h]
    show place = front.length - 1
    omega

end

/-! ## Line feeds -/

def bytes (t : Text) : List UInt8 := t.flatMap String.utf8EncodeChar

def lineFeed : UInt8 := 10

/-- The places behind the line feeds of some bytes, the first of which stands at `offset`. -/
def behindFeeds (offset : Nat) (bs : List UInt8) : List Nat :=
  ((bs.zipIdx offset).filter fun p => p.1 == lineFeed).map fun p => p.2 + 1

theorem bytes_cons (c : Char) (t : Text) : bytes (c :: t) = String.utf8EncodeChar c ++ t.bytes :=
  List.flatMap_cons

theorem le_toNat_of_mem_utf8EncodeChar {c : Char} (hc : 127 < c.val.toNat) :
    ∀ b ∈ String.utf8EncodeChar c, 128 ≤ b.toNat := by
  unfold String.utf8EncodeChar
  simp only [Nat.not_le.2 hc, if_false]
  split
  · simp only [List.forall_mem_cons, UInt8.toNat_ofNat']
    exact ⟨by omega, by omega, by simp⟩
  · split
    · simp only [List.forall_mem_cons, UInt8.toNat_ofNat']
      exact ⟨by omega, by omega, by omega, by simp⟩
    · simp only [List.forall_mem_cons, UInt8.toNat_ofNat']
      exact ⟨by omega, by omega, by omega, by omega, by simp⟩

/-- No byte of another character is a line feed. -/
theorem lineFeed_mem_utf8EncodeChar {c : Char} :
    lineFeed ∈ String.utf8EncodeChar c ↔ c = '\n' := by
  constructor
  · intro h
    rcases Nat.lt_or_ge 127 c.val.toNat with hc | hc
    · exact absurd (le_toNat_of_mem_utf8EncodeChar hc _ h) (by decide)
    · unfold String.utf8EncodeChar at h
      simp only [hc, if_true, List.mem_singleton] at h
      have hcode := congrArg UInt8.toNat h
      rw [UInt8.toNat_ofNat_of_lt' (Nat.lt_of_le_of_lt hc (by decide))] at hcode
      exact Char.ext (UInt32.toNat_inj.1 hcode.symm)
  · rintro rfl
    decide

section

variable {offset : Nat} {bs : List UInt8}

theorem behindFeeds_append (offset : Nat) (as bs : List UInt8) : behindFeeds offset (as ++ bs) =
    behindFeeds offset as ++ behindFeeds (offset + as.length) bs := by
  unfold behindFeeds
  rw [List.zipIdx_append, List.filter_append, List.map_append]

theorem mem_behindFeeds {s : Nat} : s ∈ behindFeeds offset bs ↔
    ∃ k, bs[k]? = some lineFeed ∧ s = offset + k + 1 := by
  unfold behindFeeds
  simp only [List.mem_map, List.mem_filter, beq_iff_eq, Prod.exists]
  constructor
  · rintro ⟨b, i, ⟨hmem, rfl⟩, rfl⟩
    obtain ⟨hle, hbyte⟩ := List.mk_mem_zipIdx_iff_le_and_getElem?_sub.1 hmem
    exact ⟨i - offset, hbyte, by omega⟩
  · rintro ⟨k, hbyte, rfl⟩
    refine ⟨lineFeed, offset + k, ⟨?_, rfl⟩, rfl⟩
    rw [List.mk_mem_zipIdx_iff_le_and_getElem?_sub]
    exact ⟨by omega, by rwa [Nat.add_sub_cancel_left]⟩

theorem behindFeeds_of_not_mem (h : lineFeed ∉ bs) : behindFeeds offset bs = [] := by
  refine List.eq_nil_iff_forall_not_mem.2 fun s hs => ?_
  obtain ⟨k, hbyte, -⟩ := mem_behindFeeds.1 hs
  exact h (List.mem_of_getElem? hbyte)

theorem length_behindFeeds : (behindFeeds offset bs).length = bs.count lineFeed := by
  unfold behindFeeds
  rw [List.length_map, ← List.countP_eq_length_filter]
  have hmap : (bs.zipIdx offset).map Prod.fst = bs := List.zipIdx_map_fst offset bs
  rw [List.count, ← hmap, List.countP_map, hmap]
  rfl

theorem pairwise_behindFeeds (offset : Nat) (bs : List UInt8) :
    (behindFeeds offset bs).Pairwise (· < ·) := by
  unfold behindFeeds
  have hplaces : (bs.zipIdx offset).Pairwise fun p q => p.2 < q.2 := by
    rw [← List.pairwise_map, List.zipIdx_map_snd]
    exact List.pairwise_lt_range' 1
  refine List.pairwise_map.2 ((hplaces.sublist List.filter_sublist).imp fun h => ?_)
  exact Nat.succ_lt_succ h

end

/-- Lines begin at the first byte and behind the bytes that are line feeds. -/
theorem lineStarts_eq (t : Text) : t.lineStarts = 0 :: behindFeeds 0 t.bytes := by
  have hfrom : ∀ (t : Text) (offset : Nat),
      lineStartsFrom offset t = behindFeeds offset t.bytes := by
    intro t
    induction t with
    | nil => exact fun offset => rfl
    | cons c t ih =>
      intro offset
      unfold lineStartsFrom
      simp only
      rw [bytes_cons, behindFeeds_append, String.length_utf8EncodeChar, ih]
      split
      · next hfeed =>
        subst hfeed
        rfl
      · next hother =>
        rw [behindFeeds_of_not_mem fun hmem => hother (lineFeed_mem_utf8EncodeChar.1 hmem)]
        rfl
  exact congrArg (0 :: ·) (hfrom t 0)

/-! ## Positions -/

/-- The line that holds the offset begins at `start`: behind a line feed or with the text, and no
line feed stands between. -/
structure LineBegin (t : Text) (offset start : Nat) : Prop where
  le : start ≤ offset
  behind : start = 0 ∨ t.bytes[start - 1]? = some lineFeed
  apart : ∀ k, start ≤ k → k < offset → t.bytes[k]? ≠ some lineFeed

def startsUpTo (t : Text) (offset : Nat) : List Nat := 0 :: behindFeeds 0 (t.bytes.take offset)

section

variable (t : Text) (offset : Nat)

theorem startsUpTo_ne_nil : t.startsUpTo offset ≠ [] := List.cons_ne_nil _ _

theorem length_startsUpTo :
    (t.startsUpTo offset).length = 1 + (t.bytes.take offset).count lineFeed := by
  unfold startsUpTo
  rw [List.length_cons, length_behindFeeds, Nat.add_comm]

theorem pairwise_lineStarts : t.lineStarts.Pairwise (· < ·) := by
  rw [lineStarts_eq]
  refine List.pairwise_cons.2 ⟨fun s hs => ?_, pairwise_behindFeeds _ _⟩
  obtain ⟨k, -, rfl⟩ := mem_behindFeeds.1 hs
  omega

theorem exists_lineStarts_append : ∃ behind, t.lineStarts = t.startsUpTo offset ++ behind ∧
    (∀ s ∈ t.startsUpTo offset, s ≤ offset) ∧ ∀ s ∈ behind, offset < s := by
  refine ⟨behindFeeds (t.bytes.take offset).length (t.bytes.drop offset), ?_, ?_, ?_⟩
  · rw [lineStarts_eq, startsUpTo, List.cons_append]
    conv_lhs => rw [← List.take_append_drop offset t.bytes, behindFeeds_append, Nat.zero_add]
  · unfold startsUpTo
    rw [List.forall_mem_cons]
    refine ⟨Nat.zero_le _, fun s hs => ?_⟩
    obtain ⟨k, hbyte, rfl⟩ := mem_behindFeeds.1 hs
    have hk := (List.getElem?_eq_some_iff.1 hbyte).1
    rw [List.length_take] at hk
    omega
  · intro s hs
    obtain ⟨k, hbyte, rfl⟩ := mem_behindFeeds.1 hs
    have hk := (List.getElem?_eq_some_iff.1 hbyte).1
    rw [List.length_drop] at hk
    rw [List.length_take]
    omega

theorem lineBegin_getLast :
    t.LineBegin offset ((t.startsUpTo offset).getLast (startsUpTo_ne_nil t offset)) := by
  obtain ⟨behind, hsplit, hupTo, -⟩ := exists_lineStarts_append t offset
  have hsorted := pairwise_lineStarts t
  rw [hsplit] at hsorted
  have hmem := List.getLast_mem (startsUpTo_ne_nil t offset)
  generalize hlast : (t.startsUpTo offset).getLast (startsUpTo_ne_nil t offset) = start at hmem ⊢
  refine ⟨hupTo start hmem, ?_, fun k hle hlt hbyte => ?_⟩
  · rcases List.mem_cons.1 hmem with hzero | hfeed
    · exact Or.inl hzero
    · obtain ⟨k, hbyte, rfl⟩ := mem_behindFeeds.1 hfeed
      rw [Nat.zero_add, Nat.add_sub_cancel]
      rw [List.getElem?_take] at hbyte
      split at hbyte
      · exact Or.inr hbyte
      · cases hbyte
  · -- a line feed at `k` would begin a later line up to the offset
    have hlater : k + 1 ∈ t.startsUpTo offset := by
      refine List.mem_cons_of_mem _ (mem_behindFeeds.2 ⟨k, ?_, by omega⟩)
      rw [List.getElem?_take_of_lt hlt, hbyte]
    have hmax := ((List.pairwise_append.1 hsorted).1.imp Nat.le_of_lt).rel_getLast hlater
    omega

/-- Line and column of an offset. The line is counted by the line feeds before the offset, and
the column from where the line begins. -/
theorem exists_position : ∃ start,
    t.lineStarts[lineAt t.lineStarts offset]? = some start ∧ t.LineBegin offset start ∧
      t.position offset = ⟨1 + (t.bytes.take offset).count lineFeed, offset - start + 1⟩ := by
  obtain ⟨behind, hsplit, hupTo, hbehind⟩ := exists_lineStarts_append t offset
  have hne := startsUpTo_ne_nil t offset
  have hlength := length_startsUpTo t offset
  have hsorted := pairwise_lineStarts t
  rw [hsplit] at hsorted
  have hline := lineAt_append hsorted hupTo hbehind hne
  have hstart : t.lineStarts[lineAt t.lineStarts offset]? =
      some ((t.startsUpTo offset).getLast hne) := by
    rw [hsplit, hline, List.getElem?_append_left (by omega), List.getLast_eq_getElem,
      List.getElem?_eq_getElem]
  refine ⟨_, hstart, lineBegin_getLast t offset, ?_⟩
  unfold position
  simp only
  rw [List.getD_eq_getElem?_getD, hstart, hsplit, hline, hlength]
  congr 1
  omega

end

end Text

/-- Positions in the order of reading: by line, and in a line by column. -/
def Position.key (p : Position) : Nat ×ₗ Nat := toLex (p.line, p.column)

namespace Text

/-- On a line feed, behind it, and beyond the end. -/
example : [0, 2, 3, 9].map (position "é\nb".toList) = [⟨1, 1⟩, ⟨1, 3⟩, ⟨2, 1⟩, ⟨2, 7⟩] := by
  decide +kernel

end Text

end ArgFill
